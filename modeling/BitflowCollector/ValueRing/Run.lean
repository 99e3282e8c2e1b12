import BitflowCollector.ValueRing.Slots

/-!
# Runs of a ring

A ring is driven by one writer (`AddToHead`, `FlushHead`, `Add`, `Increment`) and by readers
(`GetHead`, `GetDiff`). The lock of the ring makes each locked method one atomic step, so a run
is a list of calls `Op`, executed one after the other by `ValueRing.step`. A call that indexes
the slice out of range panics, and the run stops there: `ValueRing.run` returns the outputs of
the calls that returned and the final ring, or `none` after a panic.

On a well-formed ring no call panics, and every call leaves it well formed (`WF.step`). From a
ring that `NewValueRing` builds with a positive length, every run therefore completes, with the
head inside the slice at every point (`newValueRing_run_inBounds`).

## Main definitions

* `BitflowCollector.ValueRing.Op`, `BitflowCollector.ValueRing.Out`.
* `BitflowCollector.ValueRing.step`, `BitflowCollector.ValueRing.run`.

## Main results

* `BitflowCollector.ValueRing.WF.getDiff_spec`, `WF.step_getDiff_of_nonneg`,
  `WF.step_getDiff_of_neg`: the two branches of `GetDiff`.
* `BitflowCollector.ValueRing.WF.step`, `BitflowCollector.ValueRing.WF.run`.
* `BitflowCollector.ValueRing.newValueRing_run_inBounds`.
-/

namespace BitflowCollector

namespace ValueRing

variable {V : Type} [LogbackValue V]

/-- The calls made on a ring. `now` is the instant `time.Now()` gives `FlushHead`. -/
inductive Op (V : Type) where
  | addToHead (val : V)
  | flushHead (now : Int)
  | add (now : Int) (val : V)
  | increment (now : Int) (val : V)
  | getHead
  | getDiff

/-- What a call returns. A `GetDiff` also records the rate `getDiffInterval` computed, which
tells its two branches apart. -/
inductive Out (V : Type) where
  | done
  | head (val : Option V)
  | diff (fresh returned : ℚ)
deriving DecidableEq

/-- One call, run atomically; `none` is a panic. -/
def step (ring : ValueRing V) : Op V → Option (ValueRing V × Out V)
  | .addToHead val => some (ring.addToHead val, .done)
  | .flushHead now => (ring.flushHead now).map (·, .done)
  | .add now val => (ring.add now val).map (·, .done)
  | .increment now val => (ring.increment now val).map (·, .done)
  | .getHead => ring.getHeadValue.map (ring, .head ·)
  | .getDiff => ring.getDiffInterval ring.interval >>= fun fresh =>
      ring.getDiff.map fun r => (r.2, .diff fresh r.1)

/-- A run of calls: the outputs of the calls that returned, and the final ring, or `none` once
a call panicked. -/
def run (ring : ValueRing V) : List (Op V) → List (Out V) × Option (ValueRing V)
  | [] => ([], some ring)
  | op :: ops => match ring.step op with
    | none => ([], none)
    | some (ring', out) => ((ring'.run ops).1.cons out, (ring'.run ops).2)

theorem run_cons_of_step {ring ring' : ValueRing V} {op : Op V} {out : Out V}
    (h : ring.step op = some (ring', out)) (ops : List (Op V)) :
    ring.run (op :: ops) = (out :: (ring'.run ops).1, (ring'.run ops).2) := by
  simp [run, h]

/-- A run of `ops ++ ops'` runs `ops'` from the ring that `ops` left. -/
theorem run_append {ring ring' : ValueRing V} {ops : List (Op V)}
    (h : (ring.run ops).2 = some ring') (ops' : List (Op V)) :
    ring.run (ops ++ ops') = ((ring.run ops).1 ++ (ring'.run ops').1, (ring'.run ops').2) := by
  induction ops generalizing ring with
  | nil => cases h; rfl
  | cons op ops ih =>
    cases hs : ring.step op with
    | none => simp [run, hs] at h
    | some p =>
      rw [run_cons_of_step hs] at h
      rw [List.cons_append, run_cons_of_step hs, run_cons_of_step hs, ih h]
      rfl

omit [LogbackValue V] in
/-- An output that is not a `GetDiff` meeting a negative rate. -/
def Out.FreshNonneg : Out V → Prop
  | .diff fresh _ => 0 ≤ fresh
  | _ => True

omit [LogbackValue V] in
instance : DecidablePred (Out.FreshNonneg (V := V))
  | .done => isTrue trivial
  | .head _ => isTrue trivial
  | .diff fresh _ => inferInstanceAs (Decidable (0 ≤ fresh))

omit [LogbackValue V] in
/-- No `GetDiff` of the outputs meets a negative rate, from the decidable form of the statement. -/
theorem diff_nonneg_of_forall_freshNonneg (outs : List (Out V))
    (h : ∀ out ∈ outs, out.FreshNonneg) : ∀ fresh val, Out.diff fresh val ∈ outs → 0 ≤ fresh :=
  fun _ _ hm => h _ hm

/-! ### The calls on a well-formed ring -/

namespace WF

variable {ring : ValueRing V} (hw : ring.WF)
include hw

theorem addToHead (val : V) : (ring.addToHead val).WF :=
  ⟨hw.length_pos, hw.head_nonneg, hw.head_lt⟩

theorem increment_eq (now : Int) (val : V) :
    ∃ s0 rest, ring.slots = s0 :: rest ∧
      ring.increment now val = ring.add now (match s0.val with
                                             | some c => LogbackValue.addValue c val
                                             | none => val) := by
  obtain ⟨s0, rest, hs⟩ := List.exists_cons_of_ne_nil hw.slots_ne_nil
  exact ⟨s0, rest, hs, by rw [increment, hw.getHead_eq, hs]; rfl⟩

/-- `GetDiff` answers a non-negative rate and records it; on a negative one it answers the
previous rate and flushes. -/
theorem getDiff_spec :
    (0 ≤ slotsRate ring.interval ring.slots →
      ring.getDiff = some (slotsRate ring.interval ring.slots,
        { ring with previousDiff := slotsRate ring.interval ring.slots })) ∧
    (slotsRate ring.interval ring.slots < 0 →
      ring.getDiff = (ring.flush (ring.head - 2)).map (ring.previousDiff, ·)) := by
  constructor <;> intro h <;>
    simp [getDiff, hw.getDiffInterval_eq, h, not_lt.2, lt_irrefl, not_le.2]

/-- A `GetDiff` that finds a non-negative rate answers it and records it. -/
theorem step_getDiff_of_nonneg (h : 0 ≤ slotsRate ring.interval ring.slots) :
    ring.step .getDiff = some ({ ring with previousDiff := slotsRate ring.interval ring.slots },
      .diff (slotsRate ring.interval ring.slots) (slotsRate ring.interval ring.slots)) := by
  simp [ValueRing.step, hw.getDiffInterval_eq, (hw.getDiff_spec).1 h]

/-- A `GetDiff` that finds a negative rate answers the previous one and flushes. -/
theorem step_getDiff_of_neg (h : slotsRate ring.interval ring.slots < 0) :
    ∃ values', ring.step .getDiff = some ({ ring with values := values' },
        .diff (slotsRate ring.interval ring.slots) ring.previousDiff) ∧
      ({ ring with values := values' } : ValueRing V).WF ∧
      values'.length = ring.values.length ∧
      ({ ring with values := values' } : ValueRing V).slots =
        flushSlots (decide (ring.head ≤ 1)) ring.slots := by
  obtain ⟨values', hf, hw', hl, hs⟩ := hw.flush_spec
  exact ⟨values', by simp [ValueRing.step, hw.getDiffInterval_eq, (hw.getDiff_spec).2 h, hf],
    hw', hl, hs⟩

/-- No call panics on a well-formed ring, and every call leaves it well formed, with the same
slice length and window. -/
theorem step (op : Op V) :
    ∃ ring' out, ring.step op = some (ring', out) ∧ ring'.WF ∧
      ring'.values.length = ring.values.length ∧ ring'.interval = ring.interval := by
  cases op with
  | addToHead val => exact ⟨_, _, rfl, hw.addToHead val, rfl, rfl⟩
  | flushHead now =>
    obtain ⟨r', h, hw', hl, -, -, -, hi, -⟩ := hw.flushHead_spec now
    exact ⟨r', .done, by simp [ValueRing.step, h], hw', hl, hi⟩
  | add now val =>
    obtain ⟨r', h, hw', hl, -, -, -, hi, -⟩ := (hw.addToHead val).flushHead_spec now
    exact ⟨r', .done, by simp [ValueRing.step, add, h], hw', hl, hi⟩
  | increment now val =>
    obtain ⟨s0, rest, -, hi⟩ := hw.increment_eq now val
    generalize (match s0.val with | some c => LogbackValue.addValue c val | none => val) = v at hi
    obtain ⟨r', h, hw', hl, -, -, -, hint, -⟩ := (hw.addToHead v).flushHead_spec now
    exact ⟨r', .done, by simp [ValueRing.step, hi, add, h], hw', hl, hint⟩
  | getHead =>
    obtain ⟨s0, rest, hs⟩ := List.exists_cons_of_ne_nil hw.slots_ne_nil
    exact ⟨ring, .head s0.val, by simp [ValueRing.step, getHeadValue, hw.getHead_eq, hs], hw, rfl,
      rfl⟩
  | getDiff =>
    by_cases hneg : slotsRate ring.interval ring.slots < 0
    · obtain ⟨values', h, hw', hl, -⟩ := hw.step_getDiff_of_neg hneg
      exact ⟨_, _, h, hw', hl, rfl⟩
    · exact ⟨_, _, hw.step_getDiff_of_nonneg (not_lt.1 hneg),
        ⟨hw.length_pos, hw.head_nonneg, hw.head_lt⟩, rfl, rfl⟩

/-- A run from a well-formed ring completes, and ends in a well-formed ring with the same slice
length and window. -/
theorem run (ops : List (Op V)) :
    ∃ ring', (ring.run ops).2 = some ring' ∧ ring'.WF ∧
      ring'.values.length = ring.values.length ∧ ring'.interval = ring.interval := by
  induction ops generalizing ring with
  | nil => exact ⟨ring, rfl, hw, rfl, rfl⟩
  | cons op ops ih =>
    obtain ⟨r', out, h, hw', hl, hi⟩ := hw.step op
    obtain ⟨r'', h', hw'', hl', hi'⟩ := ih hw'
    exact ⟨r'', by rw [run_cons_of_step h, h'], hw'', hl'.trans hl, hi'.trans hi⟩

end WF

omit [LogbackValue V] in
theorem newValueRing_wf {f : ValueRingFactory} (hC : 1 ≤ f.length) :
    ∃ ring : ValueRing V, f.newValueRing = some ring ∧ ring.WF ∧
      ring.values.length = f.length := by
  refine ⟨_, if_neg (by omega), ⟨by simp; omega, le_refl _, by simp; omega⟩, by simp; omega⟩

omit [LogbackValue V] in
theorem newValueRing_previousDiff {f : ValueRingFactory} {ring : ValueRing V}
    (h : f.newValueRing = some ring) : ring.previousDiff = 0 := by
  simp only [ValueRingFactory.newValueRing] at h
  split_ifs at h; cases h; rfl

/-- From a ring that `NewValueRing` builds with a positive length, every run of calls completes:
no call indexes the slice out of range, and the head stays inside the slice. -/
theorem newValueRing_run_inBounds (f : ValueRingFactory) (hC : 1 ≤ f.length)
    (ops : List (Op V)) :
    ∃ ring₀ : ValueRing V, f.newValueRing = some ring₀ ∧
      ∃ ring, (ring₀.run ops).2 = some ring ∧ 0 ≤ ring.head ∧ ring.head < f.length ∧
        ring.values.length = f.length := by
  obtain ⟨ring₀, h₀, hw₀, hl₀⟩ := newValueRing_wf (V := V) hC
  obtain ⟨ring, h, hw, hl, -⟩ := hw₀.run ops
  exact ⟨ring₀, h₀, ring, h, hw.head_nonneg, by have := hw.head_lt; omega, by rw [hl, hl₀]⟩

theorem run_inBounds_three_slots :
    ∃ ring₀ : ValueRing StoredValue,
      (⟨3, 1000000000⟩ : ValueRingFactory).newValueRing = some ring₀ ∧
      ∃ ring, (ring₀.run [.add 0 ⟨10⟩, .getDiff, .increment 1000000000 ⟨5⟩]).2 = some ring ∧
        0 ≤ ring.head ∧ ring.head < (⟨3, 1000000000⟩ : ValueRingFactory).length ∧
        ring.values.length = (⟨3, 1000000000⟩ : ValueRingFactory).length :=
  newValueRing_run_inBounds ⟨3, 1000000000⟩ (by decide) _

end ValueRing

end BitflowCollector
