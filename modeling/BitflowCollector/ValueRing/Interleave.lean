import BitflowCollector.ValueRing.Run

/-!
# Calls that overlap

Of the methods of a ring only `FlushHead`, `GetDiff` and `GetHead` take its lock. `AddToHead`
runs unlocked (writers are serialized by the caller: "Writing access must be serialized
externally!"), `Add` is `AddToHead` then `FlushHead`, and `Increment` reads the newest slot with
the unlocked `getHead` before its `Add`. While the thread that writes is inside an `Add` or an
`Increment`, the `GetHead` and `GetDiff` calls of other threads can run between its statements.

A `Thread` is the thread that makes the writer calls (it may make reader calls too): the calls
it has left and where it is in the first one (`Pc`). A `Turn` runs one statement of that thread,
or one whole locked reader call of another thread. `interleave` runs a list of turns and returns
the calls that finished, in the order they finished, with what they returned.

The calls, run one after the other in the order they finished, return the same values and leave
the same ring (`interleave_linearizable`): every call takes effect at its last statement.
`AddToHead` commutes with both readers, which never read the aggregator
(`step_reader_addToHead`), and a reader that runs between `Increment`'s read of the head and its
`FlushHead` leaves the head as it was, unless it is a `GetDiff` on its negative branch
(`step_reader_getHead`). From a well-formed ring no interleaving panics (`WF.interleave`).

## Main definitions

* `BitflowCollector.ValueRing.Pc`, `BitflowCollector.ValueRing.Thread`,
  `BitflowCollector.ValueRing.Turn`.
* `BitflowCollector.ValueRing.Thread.turn`, `BitflowCollector.ValueRing.Turn.run`,
  `BitflowCollector.ValueRing.interleave`.
* `BitflowCollector.ValueRing.Thread.Sim`: the ring the threads share against the ring of the
  finished calls.

## Main results

* `BitflowCollector.ValueRing.interleave_linearizable`.
* `BitflowCollector.ValueRing.WF.interleave`.
-/

namespace BitflowCollector

namespace ValueRing

variable {V : Type} [LogbackValue V]

/-! ### `Increment`'s read of the head -/

/-- The `val` that `Increment(val)` passes to `Add` when `getHead` found `cur`:
`cur.AddValue(val)` when `cur != nil`, `val` otherwise. -/
def incrementedVal (cur : Option V) (val : V) : V :=
  match cur with
  | some c => LogbackValue.addValue c val
  | none => val

/-- The `val` that `Increment(val)` adds on `ring`, read from its newest slot. -/
def headIncrement (ring : ValueRing V) (val : V) : Option V :=
  ring.getHead.map fun cur => incrementedVal cur.val val

theorem increment_eq_bind (now : Int) (val : V) (ring : ValueRing V) :
    ring.increment now val = ring.headIncrement val >>= ring.add now := by
  unfold increment headIncrement incrementedVal
  cases ring.getHead <;> rfl

/-! ### The readers and the aggregator -/

/-- The calls of the other threads. -/
inductive Reader where
  | getHead
  | getDiff
deriving DecidableEq, Repr

/-- The call a reader makes. -/
def Reader.op : Reader → Op V
  | .getHead => .getHead
  | .getDiff => .getDiff

omit [LogbackValue V] in
/-- `flush` changes the slice only, so it commutes with a change of the aggregator. -/
private theorem flush_addToHead [LogbackValue V] (ring : ValueRing V) (val : V) (start : Int) :
    (ring.addToHead val).flush start = (ring.flush start).map (addToHead val) := by
  simp only [flush, addToHead]
  cases forRange flushSlot (if start < 0 then start + ring.values.length else start) 0
      ring.values with
  | none => rfl
  | some fl =>
    cases fl with
    | exit values => rfl
    | next values =>
      simp only [Option.bind_eq_bind, Option.some_bind, Option.map_map]
      rfl

@[simp] theorem values_addToHead (ring : ValueRing V) (val : V) :
    (ring.addToHead val).values = ring.values := rfl

@[simp] theorem head_addToHead (ring : ValueRing V) (val : V) :
    (ring.addToHead val).head = ring.head := rfl

@[simp] theorem interval_addToHead (ring : ValueRing V) (val : V) :
    (ring.addToHead val).interval = ring.interval := rfl

@[simp] theorem previousDiff_addToHead (ring : ValueRing V) (val : V) :
    (ring.addToHead val).previousDiff = ring.previousDiff := rfl

@[simp] theorem getHead_addToHead (ring : ValueRing V) (val : V) :
    (ring.addToHead val).getHead = ring.getHead := rfl

@[simp] theorem getDiffInterval_addToHead (ring : ValueRing V) (val : V) (before : Int) :
    (ring.addToHead val).getDiffInterval before = ring.getDiffInterval before := rfl

private theorem getDiff_addToHead (ring : ValueRing V) (val : V) :
    (ring.addToHead val).getDiff = ring.getDiff.map fun p => (p.1, p.2.addToHead val) := by
  simp only [getDiff, getDiffInterval_addToHead, interval_addToHead, head_addToHead,
    previousDiff_addToHead, flush_addToHead]
  cases ring.getDiffInterval ring.interval with
  | none => rfl
  | some fresh =>
    simp only [Option.bind_eq_bind, Option.some_bind]
    split_ifs
    · rw [Option.map_map, Option.map_map]; rfl
    · rfl

/-- Neither reader reads the aggregator, and neither writes it: a reader call and `AddToHead`
commute. -/
theorem step_reader_addToHead (ring : ValueRing V) (val : V) (r : Reader) :
    (ring.addToHead val).step r.op =
      (ring.step r.op).map fun p => (p.1.addToHead val, p.2) := by
  cases r with
  | getHead =>
    show ring.getHeadValue.map _ = (ring.getHeadValue.map _).map _
    cases ring.getHeadValue <;> rfl
  | getDiff =>
    simp only [Reader.op, step, getDiffInterval_addToHead, interval_addToHead, getDiff_addToHead]
    cases ring.getDiffInterval ring.interval with
    | none => rfl
    | some fresh =>
      simp only [Option.bind_eq_bind, Option.some_bind, Option.map_map]
      cases ring.getDiff <;> rfl

/-- A reader call leaves the newest slot as it was, unless it is a `GetDiff` that finds a
negative rate and flushes. -/
theorem step_reader_getHead {ring ring' : ValueRing V} {r : Reader} {out : Out V}
    (h : ring.step r.op = some (ring', out))
    (hd : ∀ fresh val, out = .diff fresh val → 0 ≤ fresh) : ring'.getHead = ring.getHead := by
  cases r with
  | getHead =>
    obtain ⟨v, -, ⟨⟩⟩ := Option.map_eq_some'.1 h
    rfl
  | getDiff =>
    cases hf : ring.getDiffInterval ring.interval with
    | none => simp [Reader.op, step, hf] at h
    | some fresh =>
      simp only [Reader.op, step, getDiff, hf, Option.bind_eq_bind, Option.some_bind] at h
      split_ifs at h with hneg
      · obtain ⟨p, -, ⟨⟩⟩ := Option.map_eq_some'.1 h
        exact absurd (hd _ _ rfl) (not_le.2 hneg)
      · cases h
        rfl

/-- A reader call that keeps the newest slot keeps what `Increment` would add. -/
private theorem headIncrement_reader {ring ring' : ValueRing V} {r : Reader} {out : Out V}
    (h : ring.step r.op = some (ring', out))
    (hd : ∀ fresh val, out = .diff fresh val → 0 ≤ fresh) (val : V) :
    ring'.headIncrement val = ring.headIncrement val := by
  rw [headIncrement, headIncrement, step_reader_getHead h hd]

/-! ### The thread that writes -/

/-- Where the thread that writes is within its first call. -/
inductive Pc (V : Type) where
  /-- Before the call's first statement. -/
  | start
  /-- `Increment` past `cur := ring.getHead().val`, with the `val` it passes to `Add`. -/
  | read (val : V)
  /-- `Add`, or the `Add` of `Increment`, past its `AddToHead`. -/
  | added

/-- The thread that makes the writer calls: the calls it has left, and where it is in the
first. -/
structure Thread (V : Type) where
  calls : List (Op V)
  pc : Pc V

/-- The next statement of the thread that writes: the ring after it, the thread after it and,
after the last statement of a call, the call and what it returned. A thread with no call left
does nothing. -/
def Thread.turn (t : Thread V) (ring : ValueRing V) :
    Option (ValueRing V × Thread V × Option (Op V × Out V)) :=
  match t.calls, t.pc with
  | [], _ => some (ring, t, none)
  | .add _ val :: _, .start => some (ring.addToHead val, { t with pc := .added }, none)
  | .increment _ val :: _, .start =>
    (ring.headIncrement val).map fun v => (ring, { t with pc := .read v }, none)
  | _ :: _, .read val => some (ring.addToHead val, { t with pc := .added }, none)
  | .add now val :: ops, .added =>
    (ring.flushHead now).map fun ring' => (ring', ⟨ops, .start⟩, some (.add now val, .done))
  | .increment now val :: ops, .added =>
    (ring.flushHead now).map fun ring' => (ring', ⟨ops, .start⟩, some (.increment now val, .done))
  | op :: ops, _ => (ring.step op).map fun p => (p.1, ⟨ops, .start⟩, some (op, p.2))

/-- Who runs next: the thread that writes, by one statement, or another thread, by one whole
reader call. -/
inductive Turn where
  | writer
  | reader (r : Reader)
deriving DecidableEq, Repr

/-- One turn: the ring and the thread after it, and the call that finished in it, if any. -/
def Turn.run (ring : ValueRing V) (t : Thread V) :
    Turn → Option (ValueRing V × Thread V × Option (Op V × Out V))
  | .writer => t.turn ring
  | .reader r => (ring.step r.op).map fun p => (p.1, t, some (r.op, p.2))

/-- A list of turns: the calls that finished, in the order they finished, with what they
returned, and the final ring and thread, or `none` once a statement panicked. -/
def interleave (ring : ValueRing V) (t : Thread V) :
    List Turn → List (Op V × Out V) × Option (ValueRing V × Thread V)
  | [] => ([], some (ring, t))
  | turn :: turns => match turn.run ring t with
    | none => ([], none)
    | some (ring', t', done) =>
      (done.toList ++ (interleave ring' t' turns).1, (interleave ring' t' turns).2)

/-- What a statement of the thread that writes can do: nothing, once it has no call left; an
`AddToHead`; `Increment`'s read of the head; the `FlushHead` that ends an `Add` or an
`Increment`; or a whole call of one statement. Only the last two end a call, and the thread then
goes on with the next one. -/
theorem Thread.turn_cases (t : Thread V) (ring : ValueRing V) :
    t.turn ring = some (ring, t, none) ∨
      (∃ val pc, t.turn ring = some (ring.addToHead val, ⟨t.calls, pc⟩, none)) ∨
      (∃ val, ∃ pc : V → Pc V,
        t.turn ring = (ring.headIncrement val).map fun v => (ring, ⟨t.calls, pc v⟩, none)) ∨
      (∃ now done, t.turn ring =
        (ring.flushHead now).map fun r => (r, ⟨t.calls.tail, .start⟩, some done)) ∨
      ∃ op, t.turn ring =
        (ring.step op).map fun p => (p.1, ⟨t.calls.tail, .start⟩, some (op, p.2)) := by
  obtain ⟨calls, pc⟩ := t
  rcases calls with _ | ⟨op, ops⟩
  · exact .inl rfl
  cases pc with
  | read v => cases op <;> exact .inr (.inl ⟨v, .added, rfl⟩)
  | start =>
    cases op with
    | add now val => exact .inr (.inl ⟨val, .added, rfl⟩)
    | increment now val => exact .inr (.inr (.inl ⟨val, .read, rfl⟩))
    | addToHead val => exact .inr (.inr (.inr (.inr ⟨.addToHead val, rfl⟩)))
    | flushHead now => exact .inr (.inr (.inr (.inr ⟨.flushHead now, rfl⟩)))
    | getHead => exact .inr (.inr (.inr (.inr ⟨.getHead, rfl⟩)))
    | getDiff => exact .inr (.inr (.inr (.inr ⟨.getDiff, rfl⟩)))
  | added =>
    cases op with
    | add now val => exact .inr (.inr (.inr (.inl ⟨now, _, rfl⟩)))
    | increment now val => exact .inr (.inr (.inr (.inl ⟨now, _, rfl⟩)))
    | addToHead val => exact .inr (.inr (.inr (.inr ⟨.addToHead val, rfl⟩)))
    | flushHead now => exact .inr (.inr (.inr (.inr ⟨.flushHead now, rfl⟩)))
    | getHead => exact .inr (.inr (.inr (.inr ⟨.getHead, rfl⟩)))
    | getDiff => exact .inr (.inr (.inr (.inr ⟨.getDiff, rfl⟩)))

/-! ### The finished calls, one after the other -/

/-- The threads' ring against `atomic`, the ring of the calls that finished, run one after the
other: the same ring, except past the `AddToHead` of an `Add`, which only the aggregator shows;
an `Increment` past its read carries the value the atomic `Increment` would add on `atomic`. -/
def Thread.Sim (t : Thread V) (ring atomic : ValueRing V) : Prop :=
  match t.calls, t.pc with
  | _, .start => ring = atomic
  | .add _ val :: _, .added => ring = atomic.addToHead val
  | .increment _ val :: _, .read v => ring = atomic ∧ atomic.headIncrement val = some v
  | .increment _ val :: _, .added =>
    ∃ v, atomic.headIncrement val = some v ∧ ring = atomic.addToHead v
  | _, _ => False

theorem Thread.sim_start (calls : List (Op V)) {ring atomic : ValueRing V} :
    (⟨calls, .start⟩ : Thread V).Sim ring atomic ↔ ring = atomic := by
  rcases calls with _ | ⟨op, _⟩
  · rfl
  · cases op <;> rfl

/-- What a turn does to the ring of the finished calls: nothing when no call finished, the
finished call alone otherwise. -/
def Replays (atomic atomic' : ValueRing V) : Option (Op V × Out V) → Prop
  | none => atomic' = atomic
  | some (op, out) => atomic.step op = some (atomic', out)

/-- A statement of the thread that writes keeps the rings in step; a call that finishes in it
does what it does alone. -/
theorem Thread.turn_sim {t t' : Thread V} {ring ring' atomic : ValueRing V}
    {done : Option (Op V × Out V)} (hs : t.Sim ring atomic)
    (h : t.turn ring = some (ring', t', done)) :
    ∃ atomic', t'.Sim ring' atomic' ∧ Replays atomic atomic' done := by
  obtain ⟨calls, pc⟩ := t
  cases pc with
  | start =>
    obtain rfl : ring = atomic := (Thread.sim_start calls).1 hs
    rcases calls with _ | ⟨op, ops⟩
    · cases h
      exact ⟨ring, (Thread.sim_start []).2 rfl, rfl⟩
    · cases op with
      | add now val => cases h; exact ⟨ring, rfl, rfl⟩
      | increment now val =>
        obtain ⟨v, hv, ⟨⟩⟩ := Option.map_eq_some'.1 h
        exact ⟨ring, ⟨rfl, hv⟩, rfl⟩
      | _ =>
        dsimp only [Thread.turn] at h
        obtain ⟨p, hp, ⟨⟩⟩ := Option.map_eq_some'.1 h
        exact ⟨p.1, (Thread.sim_start ops).2 rfl, hp⟩
  | read v =>
    rcases calls with _ | ⟨_ | _ | _ | ⟨now, val⟩ | _ | _, ops⟩ <;> simp only [Thread.Sim] at hs
    obtain ⟨rfl, hv⟩ := hs
    cases h
    exact ⟨ring, ⟨v, hv, rfl⟩, rfl⟩
  | added =>
    rcases calls with _ | ⟨_ | _ | ⟨now, val⟩ | ⟨now, val⟩ | _ | _, ops⟩ <;>
      simp only [Thread.Sim] at hs
    · subst hs
      obtain ⟨r, hr, ⟨⟩⟩ := Option.map_eq_some'.1 h
      exact ⟨ring', (Thread.sim_start ops).2 rfl, by simp [Replays, step, add, hr]⟩
    · obtain ⟨v, hv, rfl⟩ := hs
      obtain ⟨r, hr, ⟨⟩⟩ := Option.map_eq_some'.1 h
      exact ⟨ring', (Thread.sim_start ops).2 rfl,
        by simp [Replays, step, increment_eq_bind, hv, add, hr]⟩

/-- A reader call keeps the rings in step, and does what it does alone, as long as it keeps the
head whenever the thread that writes is inside an `Increment`. -/
theorem Thread.reader_sim {t : Thread V} {ring ring' atomic : ValueRing V} {r : Reader}
    {out : Out V} (hs : t.Sim ring atomic) (h : ring.step r.op = some (ring', out))
    (hk : (∃ now val, Op.increment now val ∈ t.calls) →
      ∀ fresh val, out = .diff fresh val → 0 ≤ fresh) :
    ∃ atomic', t.Sim ring' atomic' ∧ atomic.step r.op = some (atomic', out) := by
  obtain ⟨calls, pc⟩ := t
  have hinc : ∀ now val ops, calls = .increment now val :: ops →
      ∀ fresh val, out = .diff fresh val → 0 ≤ fresh :=
    fun now val ops hc => hk ⟨now, val, by simp [hc]⟩
  cases pc with
  | start =>
    obtain rfl : ring = atomic := (Thread.sim_start calls).1 hs
    exact ⟨ring', (Thread.sim_start calls).2 rfl, h⟩
  | read v =>
    rcases calls with _ | ⟨_ | _ | _ | ⟨now, val⟩ | _ | _, ops⟩ <;> simp only [Thread.Sim] at hs
    obtain ⟨rfl, hv⟩ := hs
    exact ⟨ring', ⟨rfl, (headIncrement_reader h (hinc now val ops rfl) val).trans hv⟩, h⟩
  | added =>
    rcases calls with _ | ⟨_ | _ | ⟨now, val⟩ | ⟨now, val⟩ | _ | _, ops⟩ <;>
      simp only [Thread.Sim] at hs
    · subst hs
      rw [step_reader_addToHead] at h
      obtain ⟨p, hp, hpe⟩ := Option.map_eq_some'.1 h
      cases hpe
      exact ⟨p.1, rfl, hp⟩
    · obtain ⟨v, hv, rfl⟩ := hs
      rw [step_reader_addToHead] at h
      obtain ⟨p, hp, hpe⟩ := Option.map_eq_some'.1 h
      cases hpe
      exact ⟨p.1, ⟨v, (headIncrement_reader hp (hinc now val ops rfl) val).trans hv, rfl⟩, hp⟩

/-- A turn only drops calls of the thread that writes. -/
theorem Turn.run_calls {turn : Turn} {t t' : Thread V} {ring ring' : ValueRing V}
    {done : Option (Op V × Out V)} (h : turn.run ring t = some (ring', t', done)) :
    t'.calls ⊆ t.calls := by
  cases turn with
  | reader r => obtain ⟨p, -, ⟨⟩⟩ := Option.map_eq_some'.1 h; exact fun _ => id
  | writer =>
    rcases Thread.turn_cases t ring with ht | ⟨val, pc, ht⟩ | ⟨val, pc, ht⟩ | ⟨now, d, ht⟩ |
      ⟨op, ht⟩ <;> rw [Turn.run, ht] at h
    · cases h; exact fun _ => id
    · cases h; exact fun _ => id
    · obtain ⟨_, -, ⟨⟩⟩ := Option.map_eq_some'.1 h; exact fun _ => id
    · obtain ⟨_, -, ⟨⟩⟩ := Option.map_eq_some'.1 h; exact List.tail_subset _
    · obtain ⟨_, -, ⟨⟩⟩ := Option.map_eq_some'.1 h; exact List.tail_subset _

/-- One turn keeps the rings in step, and a call that finishes in it does what it does alone, as
long as a reader call that runs inside an `Increment` keeps the head. -/
theorem Turn.run_sim {turn : Turn} {t t' : Thread V} {ring ring' atomic : ValueRing V}
    {done : Option (Op V × Out V)} (hs : t.Sim ring atomic)
    (h : turn.run ring t = some (ring', t', done))
    (hk : (∃ now val, Op.increment now val ∈ t.calls) →
      ∀ op fresh val, done = some (op, .diff fresh val) → 0 ≤ fresh) :
    ∃ atomic', t'.Sim ring' atomic' ∧ Replays atomic atomic' done := by
  cases turn with
  | writer => exact Thread.turn_sim hs h
  | reader r =>
    obtain ⟨p, hp, ⟨⟩⟩ := Option.map_eq_some'.1 h
    exact Thread.reader_sim hs hp fun hi fresh val hd => hk hi _ fresh val (by rw [hd])

/-- A list of turns replays as its finished calls run one after the other, from a ring in step. -/
theorem interleave_sim {ring atomic : ValueRing V} {t : Thread V} (turns : List Turn)
    (hs : t.Sim ring atomic)
    (hk : (∃ now val, Op.increment now val ∈ t.calls) →
      ∀ op fresh val, (op, Out.diff fresh val) ∈ (interleave ring t turns).1 → 0 ≤ fresh) :
    (atomic.run ((interleave ring t turns).1.map Prod.fst)).1 =
        (interleave ring t turns).1.map Prod.snd ∧
      ∀ ring' t', (interleave ring t turns).2 = some (ring', t') →
        ∃ atomic', (atomic.run ((interleave ring t turns).1.map Prod.fst)).2 = some atomic' ∧
          t'.Sim ring' atomic' := by
  induction turns generalizing ring atomic t with
  | nil => exact ⟨rfl, fun ring' t' h => by cases h; exact ⟨atomic, rfl, hs⟩⟩
  | cons turn turns ih =>
    cases h : turn.run ring t with
    | none => simp only [interleave, h]; exact ⟨rfl, fun _ _ h => by cases h⟩
    | some q =>
      obtain ⟨ring₁, t₁, done⟩ := q
      have hrest : interleave ring t (turn :: turns) =
          (done.toList ++ (interleave ring₁ t₁ turns).1, (interleave ring₁ t₁ turns).2) := by
        simp only [interleave, h]
      rw [hrest] at hk ⊢
      obtain ⟨atomic₁, hs₁, hr⟩ := Turn.run_sim hs h fun hi op fresh val hd =>
        hk hi op fresh val (by simp [hd])
      obtain ⟨ih₁, ih₂⟩ := ih hs₁ fun hi op fresh val hm =>
        hk (let ⟨now, val, hm⟩ := hi; ⟨now, val, Turn.run_calls h hm⟩) op fresh val
          (List.mem_append_right _ hm)
      cases done with
      | none =>
        cases hr
        exact ⟨ih₁, ih₂⟩
      | some p =>
        obtain ⟨op, out⟩ := p
        simp only [Option.toList_some, List.singleton_append, List.map_cons]
        rw [run_cons_of_step hr]
        exact ⟨by rw [ih₁], ih₂⟩

/-- However the statements of the thread that writes interleave with other threads' reader
calls, the calls that finished, run one after the other in the order they finished, return what
they returned and, once the thread is between calls, leave the same ring: each call takes effect
at its last statement. When the thread makes `Increment` calls, this holds for the runs in which
no `GetDiff` finds a negative rate. -/
theorem interleave_linearizable (ring : ValueRing V) (calls : List (Op V)) (turns : List Turn)
    (hk : (∃ now val, Op.increment now val ∈ calls) →
      ∀ op fresh val, (op, Out.diff fresh val) ∈ (interleave ring ⟨calls, .start⟩ turns).1 →
        0 ≤ fresh) :
    (ring.run ((interleave ring ⟨calls, .start⟩ turns).1.map Prod.fst)).1 =
        (interleave ring ⟨calls, .start⟩ turns).1.map Prod.snd ∧
      ∀ ring' calls', (interleave ring ⟨calls, .start⟩ turns).2 = some (ring', ⟨calls', .start⟩) →
        (ring.run ((interleave ring ⟨calls, .start⟩ turns).1.map Prod.fst)).2 = some ring' := by
  obtain ⟨h₁, h₂⟩ := interleave_sim turns ((Thread.sim_start calls).2 rfl) hk
  refine ⟨h₁, fun ring' calls' h => ?_⟩
  obtain ⟨atomic', ha, hs⟩ := h₂ _ _ h
  rw [ha, (Thread.sim_start calls').1 hs]

/-- An `Increment` on an empty ring, with a `GetDiff` between its read of the head and its
`AddToHead`, and a `GetHead` before its `FlushHead`. -/
theorem interleave_linearizable_increment_overlapped :
    ((∃ now val, Op.increment now val ∈ [Op.increment 1 (⟨5⟩ : StoredValue)]) →
        ∀ op fresh val, (op, Out.diff fresh val) ∈
          (interleave (⟨1, [.zero, .zero], 0, none, 0⟩ : ValueRing StoredValue)
            ⟨[.increment 1 ⟨5⟩], .start⟩
              [.writer, .reader .getDiff, .writer, .reader .getHead, .writer]).1 →
          0 ≤ fresh) ∧
      ((⟨1, [.zero, .zero], 0, none, 0⟩ : ValueRing StoredValue).run
          ((interleave (⟨1, [.zero, .zero], 0, none, 0⟩ : ValueRing StoredValue)
            ⟨[.increment 1 ⟨5⟩], .start⟩
              [.writer, .reader .getDiff, .writer, .reader .getHead, .writer]).1.map
            Prod.fst)).1 =
        (interleave (⟨1, [.zero, .zero], 0, none, 0⟩ : ValueRing StoredValue)
          ⟨[.increment 1 ⟨5⟩], .start⟩
            [.writer, .reader .getDiff, .writer, .reader .getHead, .writer]).1.map Prod.snd ∧
      ∀ ring' calls',
        (interleave (⟨1, [.zero, .zero], 0, none, 0⟩ : ValueRing StoredValue)
          ⟨[.increment 1 ⟨5⟩], .start⟩
            [.writer, .reader .getDiff, .writer, .reader .getHead, .writer]).2 =
          some (ring', ⟨calls', .start⟩) →
        ((⟨1, [.zero, .zero], 0, none, 0⟩ : ValueRing StoredValue).run
          ((interleave (⟨1, [.zero, .zero], 0, none, 0⟩ : ValueRing StoredValue)
            ⟨[.increment 1 ⟨5⟩], .start⟩
              [.writer, .reader .getDiff, .writer, .reader .getHead, .writer]).1.map
            Prod.fst)).2 = some ring' :=
  have hout : (interleave (⟨1, [.zero, .zero], 0, none, 0⟩ : ValueRing StoredValue)
      ⟨[.increment 1 ⟨5⟩], .start⟩
        [.writer, .reader .getDiff, .writer, .reader .getHead, .writer]).1.map Prod.snd =
        [.diff 0 0, .head none, .done] := by decide
  have hk : (∃ now val, Op.increment now val ∈ [Op.increment 1 (⟨5⟩ : StoredValue)]) →
      ∀ op fresh val, (op, Out.diff fresh val) ∈
        (interleave (⟨1, [.zero, .zero], 0, none, 0⟩ : ValueRing StoredValue)
          ⟨[.increment 1 ⟨5⟩], .start⟩
            [.writer, .reader .getDiff, .writer, .reader .getHead, .writer]).1 →
        0 ≤ fresh := fun _ op fresh val hm => by
    have hm := List.mem_map_of_mem Prod.snd hm
    rw [hout] at hm
    rcases hm with _ | ⟨_, _ | ⟨_, _ | ⟨_, ⟨⟩⟩⟩⟩
    exact le_refl 0
  ⟨hk, interleave_linearizable _ _ _ hk⟩

/-! ### No interleaving panics -/

namespace WF

variable {ring : ValueRing V} (hw : ring.WF)
include hw

theorem headIncrement_isSome (val : V) : ∃ v, ring.headIncrement val = some v := by
  obtain ⟨s0, rest, hs⟩ := List.exists_cons_of_ne_nil hw.slots_ne_nil
  exact ⟨_, by rw [headIncrement, hw.getHead_eq, hs]; rfl⟩

/-- On a well-formed ring no turn panics, and every turn leaves it well formed, with the same
slice length. -/
theorem turn_run (turn : Turn) (t : Thread V) :
    ∃ ring' t' done, turn.run ring t = some (ring', t', done) ∧ ring'.WF ∧
      ring'.values.length = ring.values.length := by
  cases turn with
  | reader r =>
    obtain ⟨r', out, h, hw', hl, -⟩ := hw.step r.op
    exact ⟨r', t, some (r.op, out), by rw [Turn.run, h]; rfl, hw', hl⟩
  | writer =>
    rcases Thread.turn_cases t ring with h | ⟨val, pc, h⟩ | ⟨val, pc, h⟩ | ⟨now, done, h⟩ |
      ⟨op, h⟩
    · exact ⟨ring, t, none, h, hw, rfl⟩
    · exact ⟨_, _, none, h, hw.addToHead val, rfl⟩
    · obtain ⟨v, hv⟩ := hw.headIncrement_isSome val
      exact ⟨ring, _, none, by rw [Turn.run, h, hv]; rfl, hw, rfl⟩
    · obtain ⟨r', hr, hw', hl, -⟩ := hw.flushHead_spec now
      exact ⟨r', _, some done, by rw [Turn.run, h, hr]; rfl, hw', hl⟩
    · obtain ⟨r', out, hr, hw', hl, -⟩ := hw.step op
      exact ⟨r', _, some (op, out), by rw [Turn.run, h, hr]; rfl, hw', hl⟩

omit hw in
/-- From a well-formed ring no interleaving of the statements of the thread that writes with
other threads' reader calls panics: every statement indexes inside the slice, and the ring stays
well formed with the same length. -/
theorem interleave (hw : ring.WF) (t : Thread V) (turns : List Turn) :
    ∃ ring' t', (ValueRing.interleave ring t turns).2 = some (ring', t') ∧ ring'.WF ∧
      ring'.values.length = ring.values.length := by
  induction turns generalizing ring t with
  | nil => exact ⟨ring, t, rfl, hw, rfl⟩
  | cons turn turns ih =>
    obtain ⟨r', t', done, h, hw', hl⟩ := hw.turn_run turn t
    obtain ⟨r'', t'', h', hw'', hl'⟩ := ih hw' t'
    exact ⟨r'', t'', by simp only [ValueRing.interleave, h]; exact h', hw'', hl'.trans hl⟩

end WF

theorem interleave_three_slots_wf :
    ValueRing.WF (⟨1, [.zero, .zero, .zero], 0, none, 0⟩ : ValueRing StoredValue) ∧
      ∃ ring' t', (interleave (⟨1, [.zero, .zero, .zero], 0, none, 0⟩ : ValueRing StoredValue)
          ⟨[.add 0 ⟨1⟩, .increment 1 ⟨2⟩], .start⟩
          [.writer, .reader .getDiff, .writer, .writer, .reader .getHead]).2 = some (ring', t') ∧
        ring'.WF ∧
        ring'.values.length = 3 :=
  have hw : ValueRing.WF (⟨1, [.zero, .zero, .zero], 0, none, 0⟩ : ValueRing StoredValue) :=
    ⟨by decide, by decide, by decide⟩
  ⟨hw, WF.interleave hw _ _⟩

end ValueRing

end BitflowCollector
