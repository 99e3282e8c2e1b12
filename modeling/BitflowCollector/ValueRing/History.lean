import BitflowCollector.ValueRing.Run

/-!
# The ring holds the last commits

What a ring is for: it keeps the samples committed so far, newest first, and the values
aggregated for the next commit (`History`). A commit is a `FlushHead` call, made directly or by
`Add` and `Increment`; it stores the values passed to `AddToHead` since the previous commit,
folded with `AddValue` from the left (`aggregate`).

A ring *holds* a history (`Holds`) when its slots are the commits newest first, followed by the
empty slots `make` left, its head has advanced once per commit, and its aggregator is the
aggregate of the pending values. Every call keeps this relation, except a `GetDiff` that takes
its negative-rate branch, which flushes slots (`Holds.step`). From a ring `NewValueRing` builds
with a positive length, a run in which no `GetDiff` meets a negative rate therefore ends with
the head at the number of commits modulo the length and the last commits in the slots
`head - 1`, `head - 2`, … (`newValueRing_run_holds`). In particular, a counter kept by
`IncrementValue` holds the sum of its deltas (`newValueRing_run_incrementValue`); a `GetDiff` that
meets a negative rate may flush the running total itself.

## Main definitions

* `BitflowCollector.ValueRing.aggregate`, `BitflowCollector.ValueRing.History`.
* `BitflowCollector.ValueRing.Holds`.
* `BitflowCollector.ValueRing.incrementedDeltas`, `BitflowCollector.ValueRing.addDelta`.

## Main results

* `BitflowCollector.ValueRing.Holds.step`, `BitflowCollector.ValueRing.Holds.run`.
* `BitflowCollector.ValueRing.newValueRing_run_holds`.
* `BitflowCollector.ValueRing.newValueRing_run_incrementValue`.
-/

namespace BitflowCollector

namespace ValueRing

variable {V : Type} [LogbackValue V]

/-! ### Reading the slots back from the slice -/

omit [LogbackValue V] in
/-- The slot `k` places behind the newest is the slice at `head - 1 - k`, modulo the length. -/
theorem WF.getElem?_slots {ring : ValueRing V} (hw : ring.WF) {k : Nat}
    (hk : k < ring.values.length) :
    ring.slots[k]? = sliceGet ring.values ((ring.head - 1 - k) % ring.values.length) := by
  have h0 := hw.head_nonneg
  have h1 := hw.head_lt
  rw [slots, List.getElem?_reverse (by simpa using hk), List.length_rotate,
    List.getElem?_rotate (by omega), eq_comm]
  apply sliceGet_of_eq
  rw [Int.ofNat_emod, show ring.head - 1 - k =
    ((ring.values.length - 1 - k + ring.head.toNat : Nat) : Int) + (-1) * ring.values.length
    by omega, Int.add_mul_emod_self]

omit [LogbackValue V] in
private theorem getElem?_take_replicate (L : List (TimedValue V)) {C k : Nat} (hk : k < C) :
    ((L ++ List.replicate C TimedValue.zero).take C)[k]? = some (L.getD k TimedValue.zero) := by
  rw [List.getElem?_take_of_lt hk, List.getD_eq_getElem?_getD, List.getElem?_append]
  split
  · rename_i h; simp [List.getElem?_eq_getElem h]
  · rename_i h
    rw [List.getElem?_replicate_of_lt (by omega), List.getElem?_eq_none (not_lt.1 h)]; rfl

/-! ### Histories -/

/-- The sample a commit stores: the values passed to `AddToHead` since the previous commit,
folded with `AddValue` from the left, or `nil` when there were none. -/
def aggregate : List V → Option V
  | [] => none
  | v :: vs => some (vs.foldl LogbackValue.addValue v)

theorem aggregate_concat (l : List V) (v : V) :
    aggregate (l ++ [v]) = match aggregate l with
      | none => some v
      | some agg => some (LogbackValue.addValue agg v) := by
  cases l <;> simp [aggregate]

/-- What a ring is for: the samples committed so far, newest first, and the values passed to
`AddToHead` since the last commit. -/
structure History (V : Type) where
  commits : List (TimedValue V)
  pending : List V

namespace History

/-- Aggregate `val` into the next commit. -/
def push (h : History V) (val : V) : History V := ⟨h.commits, h.pending ++ [val]⟩

/-- Commit the pending values at `now`. -/
def commit (h : History V) (now : Int) : History V :=
  ⟨⟨now, aggregate h.pending⟩ :: h.commits, []⟩

/-- The effect of a call on the history. `Increment` first adds its value to the newest
committed sample, if there is one. -/
def step (h : History V) : Op V → History V
  | .addToHead val => h.push val
  | .flushHead now => h.commit now
  | .add now val => (h.push val).commit now
  | .increment now val =>
    (h.push (match h.commits.head?.bind (·.val) with
             | some c => LogbackValue.addValue c val
             | none => val)).commit now
  | .getHead | .getDiff => h

/-- The history after a run of calls. -/
def run (h : History V) (ops : List (Op V)) : History V := ops.foldl step h

end History

/-! ### Rings holding a history -/

/-- A ring holds a history when its slots are the commits newest first, followed by the empty
slots `make` left, its head has advanced once per commit, and its aggregator is the aggregate of
the pending values. -/
structure Holds (ring : ValueRing V) (h : History V) : Prop where
  wf : ring.WF
  slots_eq : ring.slots =
    (h.commits ++ List.replicate ring.values.length TimedValue.zero).take ring.values.length
  head_eq : ring.head = h.commits.length % ring.values.length
  aggregator_eq : ring.aggregator = aggregate h.pending

namespace Holds

variable {ring : ValueRing V} {h : History V} (hh : Holds ring h)
include hh

theorem push (val : V) : Holds (ring.addToHead val) (h.push val) := by
  refine ⟨hh.wf.addToHead val, hh.slots_eq, hh.head_eq, ?_⟩
  rw [History.push, aggregate_concat, ← hh.aggregator_eq]
  unfold addToHead
  cases ring.aggregator <;> rfl

theorem commit {ring' : ValueRing V} {now : Int} (h' : ring.flushHead now = some ring') :
    Holds ring' (h.commit now) ∧ ring'.values.length = ring.values.length := by
  obtain ⟨r, hr, hw, hl, hs, hhd, ha, -⟩ := hh.wf.flushHead_spec now
  obtain rfl : ring' = r := Option.some.inj (h'.symm.trans hr)
  have hC := hh.wf.length_pos
  refine ⟨⟨hw, ?_, ?_, by simp [ha, History.commit, aggregate]⟩, hl⟩
  · rw [hs, hh.slots_eq, hl, List.dropLast_eq_take, List.take_take, hh.aggregator_eq]
    simp only [List.length_take, List.length_append, List.length_replicate, History.commit,
      List.cons_append, List.take_cons hC]
    congr 2; omega
  · rw [hhd, hh.head_eq, hl]
    simp only [History.commit, List.length_cons]
    push_cast
    rw [Int.emod_add_emod]

theorem head?_slots : ring.slots.head? = some (h.commits.headD TimedValue.zero) := by
  have hC := hh.wf.length_pos
  rw [hh.slots_eq, List.head?_take, if_neg (by omega)]
  cases h.commits with
  | nil => cases hl : ring.values.length <;> simp_all [List.replicate_succ]
  | cons c cs => rfl

/-- Every call but a `GetDiff` that meets a negative rate keeps the ring holding the history. -/
theorem step {op : Op V} {ring' : ValueRing V} {out : Out V}
    (hs : ring.step op = some (ring', out)) (hd : ∀ fresh val, out = .diff fresh val → 0 ≤ fresh) :
    Holds ring' (h.step op) ∧ ring'.values.length = ring.values.length := by
  cases op with
  | addToHead val =>
    cases hs
    exact ⟨hh.push val, rfl⟩
  | flushHead now =>
    obtain ⟨r, hr, ⟨⟩⟩ := Option.map_eq_some'.1 hs
    exact hh.commit hr
  | add now val =>
    obtain ⟨r, hr, ⟨⟩⟩ := Option.map_eq_some'.1 hs
    exact (hh.push val).commit hr
  | increment now val =>
    obtain ⟨r, hr, ⟨⟩⟩ := Option.map_eq_some'.1 hs
    obtain ⟨s0, rest, hs0, hi⟩ := hh.wf.increment_eq now val
    have hval : s0.val = h.commits.head?.bind (·.val) := by
      have := hh.head?_slots
      rw [hs0, List.head?_cons, Option.some.injEq] at this
      cases hc : h.commits <;> simp_all [TimedValue.zero]
    rw [hi, add, hval] at hr
    exact (hh.push _).commit hr
  | getHead =>
    obtain ⟨v, -, ⟨⟩⟩ := Option.map_eq_some'.1 hs
    exact ⟨hh, rfl⟩
  | getDiff =>
    simp only [ValueRing.step, hh.wf.getDiffInterval_eq, Option.bind_eq_bind,
      Option.some_bind] at hs
    by_cases hneg : slotsRate ring.interval ring.slots < 0
    · obtain ⟨r, -, ⟨⟩⟩ := Option.map_eq_some'.1 hs
      exact absurd (hd _ _ rfl) (not_le.2 hneg)
    · rw [(hh.wf.getDiff_spec).1 (not_lt.1 hneg)] at hs
      cases hs
      exact ⟨⟨⟨hh.wf.1, hh.wf.2, hh.wf.3⟩, hh.slots_eq, hh.head_eq, hh.aggregator_eq⟩, rfl⟩

omit hh in
/-- A run in which no `GetDiff` meets a negative rate keeps the ring holding the history. -/
theorem run (hh : Holds ring h) (ops : List (Op V))
    (hd : ∀ fresh val, Out.diff fresh val ∈ (ring.run ops).1 → 0 ≤ fresh) :
    ∃ ring', (ring.run ops).2 = some ring' ∧ Holds ring' (h.run ops) ∧
      ring'.values.length = ring.values.length := by
  induction ops generalizing ring h with
  | nil => exact ⟨ring, rfl, hh, rfl⟩
  | cons op ops ih =>
    obtain ⟨r', out, hs, -⟩ := hh.wf.step op
    rw [run_cons_of_step hs] at hd
    obtain ⟨hh', hl⟩ := hh.step hs fun f v ho => hd f v (ho ▸ List.mem_cons_self _ _)
    obtain ⟨r'', h'', hh'', hl''⟩ := ih hh' fun f v hm => hd f v (List.mem_cons_of_mem _ hm)
    exact ⟨r'', by rw [run_cons_of_step hs, h''], hh'', hl''.trans hl⟩

end Holds

/-- A ring `NewValueRing` builds with a positive length holds the empty history. -/
theorem newValueRing_holds {f : ValueRingFactory} (hC : 1 ≤ f.length) :
    ∃ ring₀ : ValueRing V, f.newValueRing = some ring₀ ∧ Holds ring₀ ⟨[], []⟩ ∧
      ring₀.values.length = f.length ∧ ring₀.interval = f.interval := by
  obtain ⟨ring₀, h₀, hw₀, hl₀⟩ := newValueRing_wf (V := V) hC
  have hr := h₀
  simp only [ValueRingFactory.newValueRing, if_neg (show ¬ f.length < 0 by omega),
    Option.some.injEq] at hr
  subst hr
  exact ⟨_, h₀, ⟨hw₀, by simp [slots], by simp, rfl⟩, hl₀, rfl⟩

/-- From a ring `NewValueRing` builds with a positive length, a run in which no `GetDiff` meets a
negative rate leaves the head at the number of commits modulo the length, and the slot
`head - 1 - k` (modulo the length) holds the `k`-th commit back, or the empty `TimedValue` when
there were at most `k` commits. -/
theorem newValueRing_run_holds (f : ValueRingFactory) (hC : 1 ≤ f.length) (ops : List (Op V)) :
    ∃ ring₀ : ValueRing V, f.newValueRing = some ring₀ ∧
      ((∀ fresh val, Out.diff fresh val ∈ (ring₀.run ops).1 → 0 ≤ fresh) →
        ∃ ring, (ring₀.run ops).2 = some ring ∧
          ring.head = (History.run ⟨[], []⟩ ops).commits.length % f.length ∧
          ∀ k : Nat, (k : Int) < f.length →
            sliceGet ring.values ((ring.head - 1 - k) % f.length) =
              some ((History.run ⟨[], []⟩ ops).commits.getD k TimedValue.zero)) := by
  obtain ⟨ring₀, h₀, hinit, hl₀, -⟩ := newValueRing_holds (V := V) hC
  refine ⟨ring₀, h₀, fun hd => ?_⟩
  obtain ⟨ring, h, hh, hl⟩ := hinit.run ops hd
  have hC' : (ring.values.length : Int) = f.length := by rw [hl, hl₀]
  refine ⟨ring, h, by rw [hh.head_eq, hC'], fun k hk => ?_⟩
  rw [← hC', ← hh.wf.getElem?_slots (by omega), hh.slots_eq,
    getElem?_take_replicate _ (by omega)]

unseal Rat.add Rat.sub Rat.mul Rat.inv in
/-- Three slots and four commits, the first of two values, then a `GetDiff` with a positive
rate: the head has wrapped round to `1`, and the slots hold the last three commits. -/
theorem run_holds_three_slots :
    ∃ ring₀ : ValueRing StoredValue,
      (⟨3, 1000000000⟩ : ValueRingFactory).newValueRing = some ring₀ ∧
      (∀ fresh val, Out.diff fresh val ∈ (ring₀.run [.addToHead ⟨1⟩, .add 0 ⟨2⟩,
          .add 1000000000 ⟨5⟩, .add 2000000000 ⟨6⟩, .add 3000000000 ⟨8⟩, .getDiff]).1 →
        0 ≤ fresh) ∧
      ∃ ring, (ring₀.run [.addToHead ⟨1⟩, .add 0 ⟨2⟩, .add 1000000000 ⟨5⟩,
          .add 2000000000 ⟨6⟩, .add 3000000000 ⟨8⟩, .getDiff]).2 = some ring ∧
        ring.head = (History.run (⟨[], []⟩ : History StoredValue) [.addToHead ⟨1⟩, .add 0 ⟨2⟩,
            .add 1000000000 ⟨5⟩, .add 2000000000 ⟨6⟩, .add 3000000000 ⟨8⟩,
            .getDiff]).commits.length %
          (⟨3, 1000000000⟩ : ValueRingFactory).length ∧
        ∀ k : Nat, (k : Int) < (⟨3, 1000000000⟩ : ValueRingFactory).length →
          sliceGet ring.values ((ring.head - 1 - k) % (⟨3, 1000000000⟩ : ValueRingFactory).length) =
            some ((History.run (⟨[], []⟩ : History StoredValue) [.addToHead ⟨1⟩, .add 0 ⟨2⟩,
              .add 1000000000 ⟨5⟩, .add 2000000000 ⟨6⟩, .add 3000000000 ⟨8⟩,
              .getDiff]).commits.getD k TimedValue.zero) := by
  obtain ⟨ring₀, h₀, hrun⟩ := newValueRing_run_holds ⟨3, 1000000000⟩ (by decide)
    [.addToHead (⟨1⟩ : StoredValue), .add 0 ⟨2⟩, .add 1000000000 ⟨5⟩, .add 2000000000 ⟨6⟩,
      .add 3000000000 ⟨8⟩, .getDiff]
  obtain rfl : ring₀ = ⟨1000000000, List.replicate 3 TimedValue.zero, 0, none, 0⟩ :=
    (Option.some.inj h₀).symm
  refine ⟨_, h₀, ?hd, hrun ?hd⟩
  exact diff_nonneg_of_forall_freshNonneg _ (by decide)

/-! ### Counters kept by `IncrementValue` -/

/-- The calls of a run that counts with `IncrementValue` and otherwise only reads. -/
def Op.IncrementsOrReads : Op StoredValue → Prop
  | .increment _ _ | .getHead | .getDiff => True
  | _ => False

/-- The deltas the `IncrementValue` calls of a run pass, in order. -/
def incrementedDeltas (ops : List (Op StoredValue)) : List ℚ :=
  ops.filterMap fun
    | .increment _ val => some val.value
    | _ => none

/-- The running total after one more delta: the delta alone on an empty counter. -/
def addDelta (total : Option StoredValue) (d : ℚ) : Option StoredValue :=
  some ⟨(total.map StoredValue.value).getD 0 + d⟩

private theorem foldl_addDelta (a : ℚ) (ds : List ℚ) :
    ds.foldl addDelta (some ⟨a⟩) = some ⟨a + ds.sum⟩ := by
  induction ds generalizing a with
  | nil => simp
  | cons d ds ih => simp [addDelta, ih, add_assoc]

/-- Over a run of `IncrementValue` calls and reads, the newest commit of the history is the
running total of the deltas. -/
theorem History.run_incrementsOrReads (h : History StoredValue) (hp : h.pending = [])
    {ops : List (Op StoredValue)} (hops : ∀ op ∈ ops, op.IncrementsOrReads) :
    (History.run h ops).commits.head?.bind (·.val) =
      (incrementedDeltas ops).foldl addDelta (h.commits.head?.bind (·.val)) := by
  induction ops generalizing h with
  | nil => rfl
  | cons op ops ih =>
    have hrest := fun o ho => hops o (List.mem_cons_of_mem _ ho)
    cases op with
    | increment now val =>
      rw [History.run, List.foldl_cons, ← History.run, ih _ rfl hrest,
        show incrementedDeltas (.increment now val :: ops) = val.value :: incrementedDeltas ops
          from rfl, List.foldl_cons]
      congr 1
      cases hc : h.commits.head?.bind (·.val) <;>
        simp [History.step, History.push, History.commit, hp, hc, aggregate, addDelta,
          StoredValue.addValue]
    | getHead => exact ih h hp hrest
    | getDiff => exact ih h hp hrest
    | _ => exact (hops _ (List.mem_cons_self _ _)).elim

/-- With no `GetDiff` meeting a negative rate, a counter kept by `IncrementValue` holds the sum of
its deltas: after any run of increments and reads with at least one increment, `GetHead`
answers that sum. -/
theorem newValueRing_run_incrementValue (f : ValueRingFactory) (hC : 1 ≤ f.length)
    (ops : List (Op StoredValue)) (hops : ∀ op ∈ ops, op.IncrementsOrReads)
    (hn : incrementedDeltas ops ≠ []) :
    ∃ ring₀ : ValueRing StoredValue, f.newValueRing = some ring₀ ∧
      ((∀ fresh val, Out.diff fresh val ∈ (ring₀.run ops).1 → 0 ≤ fresh) →
        ∃ ring, (ring₀.run ops).2 = some ring ∧
          ring.getHeadValue = some (some ⟨(incrementedDeltas ops).sum⟩)) := by
  obtain ⟨ring₀, h₀, hinit, -⟩ := newValueRing_holds (V := StoredValue) hC
  refine ⟨ring₀, h₀, fun hd => ?_⟩
  obtain ⟨ring, h, hh, -⟩ := hinit.run ops hd
  have htot := History.run_incrementsOrReads ⟨[], []⟩ rfl hops
  obtain ⟨d, ds, hds⟩ := List.exists_cons_of_ne_nil hn
  have hsum : 0 + d + ds.sum = (incrementedDeltas ops).sum := by simp [hds]
  rw [hds, List.foldl_cons, show addDelta (([] : List (TimedValue StoredValue)).head?.bind
    (·.val)) d = some ⟨0 + d⟩ from rfl, foldl_addDelta, hsum] at htot
  refine ⟨ring, h, ?_⟩
  rw [getHeadValue, hh.wf.getHead_eq, hh.head?_slots]
  cases hc : (History.run ⟨[], []⟩ ops).commits with
  | nil => simp [hc] at htot
  | cons c cs => simp_all

unseal Rat.add Rat.sub Rat.mul Rat.inv in
/-- Two slots, the deltas `1` and `2` with a `GetDiff` between them: `GetHead` answers `3`. -/
theorem run_incrementValue_two_slots :
    (∀ op ∈ ([.increment 1 ⟨1⟩, .getDiff, .increment 2 ⟨2⟩] : List (Op StoredValue)),
        op.IncrementsOrReads) ∧
      incrementedDeltas [.increment 1 ⟨1⟩, .getDiff, .increment 2 ⟨2⟩] ≠ [] ∧
      ∃ ring₀ : ValueRing StoredValue, (⟨2, 1⟩ : ValueRingFactory).newValueRing = some ring₀ ∧
        (∀ fresh val, Out.diff fresh val ∈
          (ring₀.run [.increment 1 ⟨1⟩, .getDiff, .increment 2 ⟨2⟩]).1 → 0 ≤ fresh) ∧
        ∃ ring, (ring₀.run [.increment 1 ⟨1⟩, .getDiff, .increment 2 ⟨2⟩]).2 = some ring ∧
          ring.getHeadValue = some (some
            ⟨(incrementedDeltas [.increment 1 ⟨1⟩, .getDiff, .increment 2 ⟨2⟩]).sum⟩) := by
  have hops : ∀ op ∈ ([.increment 1 ⟨1⟩, .getDiff, .increment 2 ⟨2⟩] : List (Op StoredValue)),
      op.IncrementsOrReads := by
    simp [Op.IncrementsOrReads]
  have hn : incrementedDeltas [.increment 1 ⟨1⟩, .getDiff, .increment 2 ⟨2⟩] ≠ [] := by decide
  obtain ⟨ring₀, h₀, hrun⟩ := newValueRing_run_incrementValue ⟨2, 1⟩ (by decide) _ hops hn
  obtain rfl : ring₀ = ⟨1, List.replicate 2 TimedValue.zero, 0, none, 0⟩ :=
    (Option.some.inj h₀).symm
  refine ⟨hops, hn, _, h₀, ?hd, hrun ?hd⟩
  exact diff_nonneg_of_forall_freshNonneg _ (by decide)

unseal Rat.add Rat.sub Rat.mul Rat.inv in
/-- Two slots and the deltas `1`, `1`, `-5`, then `1`: the `GetDiff` after the third flushes the
running total `-3`, and the fourth `Increment` starts again from `nil`. -/
theorem incrementValue_loses_total_two_slots :
    ((⟨2, 1000000000⟩ : ValueRingFactory).newValueRing.map fun ring : ValueRing StoredValue =>
      (ring.run [.increment 1000000000 ⟨1⟩, .increment 2000000000 ⟨1⟩,
        .increment 3000000000 ⟨-5⟩, .getDiff, .increment 4000000000 ⟨1⟩, .getHead]).1) =
      some [.done, .done, .done, .diff (-5) 0, .done, .head (some ⟨1⟩)] := by
  decide

end ValueRing

end BitflowCollector
