import BitflowCollector.ValueRing.Run
import Mathlib.Data.Nat.Cast.Order.Basic

/-!
# The value factory of `bitflow-collect` and the mock collector

`do_main` sizes the rings of all collectors from the collect interval `-ci`:
`valueFactory.Length = int(valueFactory.Interval/collect_local_interval) * 3`, where
`valueFactory.Interval` is `time.Second`. Go divides durations with truncation (`Int.tdiv`) and
panics on a zero divisor. `RegisterMockCollector` gives the mock collector a ring from the
factory, and every `Update` of the collector `Add`s its counter to that ring.

* For a positive `ci`, the ring has `⌊10⁹ / ci⌋ * 3` slots (`ci` in nanoseconds), at least one
  exactly when `ci` is at most a second (`configureValueFactory_length`).
* Then every run of calls on the rings completes, the first `Update` included
  (`registerMockCollector_run`); for every longer interval the ring has no slot, and the first
  `Update`, `GetHead` and `GetDiff` all index the empty slice (`update_panics_of_second_lt`).
* The goroutine of `Init` runs `col.val++` and then, apart, resets the counter to `2` once it
  reaches `_max_mock_val`; nothing orders it against `Update`, which reads `col.val` without a
  lock. The model runs the statements one at a time, in any order. Over every interleaving of its
  two statements with the `Update`s and the reads of the metric `mock`, nothing panics, and
  every sample in the ring is a whole number at most `_max_mock_val`
  (`registerMockCollector_run_mockVal`). The bound is reached: an `Update` between the two
  statements stores `_max_mock_val` itself.

## Main definitions

* `BitflowCollector.valueFactory`, `BitflowCollector.configureValueFactory`.
* `BitflowCollector.MockCollector`, `BitflowCollector.registerMockCollector`,
  `BitflowCollector.MockCollector.update`.
* `BitflowCollector.MockState`, `BitflowCollector.MockState.goroutine`,
  `BitflowCollector.MockState.run`.

## Main results

* `BitflowCollector.configureValueFactory_length`.
* `BitflowCollector.registerMockCollector_run`.
* `BitflowCollector.update_panics_of_second_lt`.
* `BitflowCollector.registerMockCollector_run_mockVal`.
-/

namespace BitflowCollector

/-- `valueFactory` of `bitflow-collect` before `do_main` runs: `Interval: time.Second`, and the
`Length` Go's zero value. -/
def valueFactory : ValueRingFactory := ⟨0, 1000000000⟩

/-- `do_main`'s `valueFactory.Length = int(valueFactory.Interval/collect_local_interval) * 3`;
`none` is the panic on a zero interval. -/
def configureValueFactory (collectLocalInterval : Int) : Option ValueRingFactory :=
  if collectLocalInterval = 0 then none
  else some { valueFactory with length := valueFactory.interval.tdiv collectLocalInterval * 3 }

/-- `MockCollector`: its counter `val` and its ring. -/
structure MockCollector where
  val : ℚ
  ring : ValueRing StoredValue

/-- `RegisterMockCollector`: the counter at Go's zero value and a ring from `factory`; `none` is
`make`'s panic on a negative length. -/
def registerMockCollector (factory : ValueRingFactory) : Option MockCollector :=
  factory.newValueRing.map fun ring => ⟨0, ring⟩

/-- `MockCollector.Update` at the instant `now`: `col.ring.Add(StoredValue(col.val))`. -/
def MockCollector.update (now : Int) (col : MockCollector) : Option MockCollector :=
  (col.ring.addValue now col.val).map fun ring => { col with ring }

/-- For a positive collect interval, the factory has the window of a second and
`⌊10⁹ / ci⌋ * 3` slots, which is positive exactly when `ci` is at most a second. -/
theorem configureValueFactory_length {ci : Int} (hci : 0 < ci) :
    ∃ f, configureValueFactory ci = some f ∧ f.interval = 1000000000 ∧
      f.length = 1000000000 / ci * 3 ∧ (1 ≤ f.length ↔ ci ≤ 1000000000) := by
  refine ⟨_, if_neg hci.ne', rfl, by
    simp [valueFactory, Int.tdiv_eq_ediv (by decide : (0 : Int) ≤ 1000000000) hci.le], ?_⟩
  show 1 ≤ Int.tdiv 1000000000 ci * 3 ↔ ci ≤ 1000000000
  rw [Int.tdiv_eq_ediv (by decide) hci.le]
  have h := Int.le_ediv_iff_mul_le (a := 1) (b := 1000000000) hci
  omega

/-- With a collect interval longer than a second, the factory has no slot: the mock collector
gets an empty ring, and its first `Update`, `GetHead` and `GetDiff` all index the empty slice. -/
theorem update_panics_of_second_lt {ci : Int} (hci : 1000000000 < ci) :
    ∃ f col, configureValueFactory ci = some f ∧ f.length = 0 ∧
      registerMockCollector f = some col ∧ (∀ now, col.update now = none) ∧
      col.ring.getHeadValue = none ∧ col.ring.getDiff = none := by
  obtain ⟨f, hf, -, hlen, hpos⟩ := configureValueFactory_length (by omega : 0 < ci)
  have h0 : f.length = 0 := by
    rw [hlen, Int.ediv_eq_zero_of_lt (by decide) hci]; rfl
  refine ⟨f, ⟨0, ⟨f.interval, [], 0, none, 0⟩⟩, hf, h0, ?_, fun now => ?_, ?_, ?_⟩ <;>
    simp [registerMockCollector, ValueRingFactory.newValueRing, h0, MockCollector.update,
      ValueRing.addValue, ValueRing.add, ValueRing.addToHead, ValueRing.flushHead,
      ValueRing.getHeadValue, ValueRing.getHead, ValueRing.getDiff, ValueRing.getDiffInterval,
      sliceSet, sliceGet]

theorem update_panics_five_second_interval :
    (1000000000 : Int) < 5000000000 ∧
      ∃ f col, configureValueFactory 5000000000 = some f ∧ f.length = 0 ∧
        registerMockCollector f = some col ∧ (∀ now, col.update now = none) ∧
        col.ring.getHeadValue = none ∧ col.ring.getDiff = none :=
  ⟨by decide, update_panics_of_second_lt (by decide)⟩

/-- `-ci 2s`: the factory has no slot, and the mock collector's first `Update` panics. -/
theorem update_panics_two_second_interval :
    ∃ f col, configureValueFactory 2000000000 = some f ∧ f.length = 0 ∧
      registerMockCollector f = some col ∧ col.update 0 = none :=
  ⟨_, _, rfl, by decide, rfl, rfl⟩

/-! ### The samples in a ring -/

namespace ValueRing

section Samples

variable {V : Type}

/-- Every full slot of the ring holds a value with the property `P`. -/
def SlotsIn (P : V → Prop) (ring : ValueRing V) : Prop :=
  ∀ s ∈ ring.slots, ∀ v, s.val = some v → P v

theorem mem_slots {ring : ValueRing V} {s : TimedValue V} : s ∈ ring.slots ↔ s ∈ ring.values := by
  rw [slots, List.mem_reverse, List.mem_rotate]

/-- `clearRun` only empties slots. -/
private theorem mem_state_clearRun {l : List (TimedValue V)} {x : TimedValue V}
    (hx : x ∈ (clearRun l).state) : x ∈ l ∨ x.val = none := by
  induction l with
  | nil => cases hx
  | cons v vs ih =>
    unfold clearRun at hx
    cases hv : v.val with
    | none => rw [hv] at hx; exact .inl hx
    | some _ =>
      rw [hv] at hx
      have hmap : ((clearRun vs).map ({ v with val := none } :: ·)).state =
          { v with val := none } :: (clearRun vs).state := by cases clearRun vs <;> rfl
      rw [hmap, List.mem_cons] at hx
      rcases hx with rfl | hx
      · exact .inr rfl
      · exact (ih hx).imp_left (List.mem_cons_of_mem v)

/-- `flush (head - 2)` only empties slots. -/
private theorem mem_flushSlots {lowHead : Bool} {l : List (TimedValue V)} {x : TimedValue V}
    (hx : x ∈ flushSlots lowHead l) : x ∈ l ∨ x.val = none := by
  cases l with
  | nil => cases hx
  | cons s0 tail =>
    have hform : ∃ hd, (hd = s0 ∨ hd.val = none) ∧
        flushSlots lowHead (s0 :: tail) = hd :: (clearRun tail).state := by
      rw [flushSlots]
      cases clearRun tail with
      | exit l => exact ⟨s0, .inl rfl, rfl⟩
      | next l =>
        split_ifs
        · exact ⟨_, .inr rfl, rfl⟩
        · exact ⟨s0, .inl rfl, rfl⟩
    obtain ⟨hd, hhd, hf⟩ := hform
    rw [hf, List.mem_cons] at hx
    rcases hx with rfl | hx
    · exact hhd.imp_left fun h => by rw [h]; exact List.mem_cons_self _ _
    · exact (mem_state_clearRun hx).imp_left (List.mem_cons_of_mem s0)

variable [LogbackValue V] {ring : ValueRing V} {P : V → Prop}

/-- `Add` of a value with the property keeps every full slot's value with the property, and the
aggregator empty; the value is the newest sample. -/
theorem WF.slotsIn_add (hw : ring.WF) (hagg : ring.aggregator = none) (hP : SlotsIn P ring)
    (now : Int) {v : V} (hv : P v) :
    ∃ ring', ring.add now v = some ring' ∧ ring'.WF ∧ ring'.aggregator = none ∧
      SlotsIn P ring' ∧ ring'.getHeadValue = some (some v) := by
  obtain ⟨ring', h, hw', -, hslots, -, hagg', -, -⟩ := (hw.addToHead v).flushHead_spec now
  have hnew : (ring.addToHead v).aggregator = some v := by
    show (match ring.aggregator with
      | none => some v
      | some agg => some (LogbackValue.addValue agg v)) = some v
    rw [hagg]
  refine ⟨ring', h, hw', hagg', fun s hs w hsw => ?_, ?_⟩
  swap
  · rw [getHeadValue, hw'.getHead_eq, hslots, hnew]
    rfl
  rw [hslots] at hs
  rcases List.mem_cons.1 hs with rfl | hs
  · exact Option.some.inj (hnew.symm.trans hsw) ▸ hv
  · exact hP s (List.dropLast_subset _ hs) w hsw

/-- `GetDiff` keeps every full slot's value with the property, and the aggregator as it is. -/
theorem WF.slotsIn_getDiff (hw : ring.WF) (hP : SlotsIn P ring) :
    ∃ answer ring', ring.getDiff = some (answer, ring') ∧ ring'.WF ∧
      ring'.aggregator = ring.aggregator ∧ SlotsIn P ring' := by
  by_cases h : 0 ≤ slotsRate ring.interval ring.slots
  · exact ⟨_, _, (hw.getDiff_spec).1 h, ⟨hw.1, hw.2, hw.3⟩, rfl, hP⟩
  · obtain ⟨values', hf, hw', -, hslots⟩ := hw.flush_spec
    refine ⟨_, _, by rw [(hw.getDiff_spec).2 (lt_of_not_le h), hf]; rfl, hw', rfl,
      fun s hs w hsw => ?_⟩
    rw [hslots] at hs
    rcases mem_flushSlots hs with hs | hnone
    · exact hP s hs w hsw
    · rw [hnone] at hsw
      cases hsw

end Samples

end ValueRing

/-! ### The counter of the mock collector -/

/-- `_max_mock_val`. -/
def maxMockVal : ℚ := 15

/-- Where the goroutine that `MockCollector.Init` starts is in its loop: asleep before
`col.val++`, or between `col.val++` and the check against `_max_mock_val`. -/
inductive MockPc
  | sleeping
  | incremented
deriving DecidableEq, Repr

/-- The mock collector and the goroutine of its `Init`. -/
structure MockState where
  col : MockCollector
  pc : MockPc

/-- The next statement of the goroutine: `col.val++` after its sleep, or
`if col.val >= _max_mock_val { col.val = 2 }`. The two run apart, so other calls can read
`col.val` between them. -/
def MockState.goroutine (s : MockState) : MockState :=
  match s.pc with
  | .sleeping => ⟨{ s.col with val := s.col.val + 1 }, .incremented⟩
  | .incremented =>
    ⟨{ s.col with val := if s.col.val ≥ maxMockVal then 2 else s.col.val }, .sleeping⟩

/-- What happens to the mock collector after `Init`: a statement of its goroutine, an `Update`
at an instant, or a read of the metric `mock`, which `Init` maps to `col.ring.GetDiff`. -/
inductive MockEvent
  | goroutine
  | update (now : Int)
  | getDiff
deriving DecidableEq, Repr

/-- The mock collector after the events, `none` after a panic. -/
def MockState.run (s : MockState) : List MockEvent → Option MockState
  | [] => some s
  | .goroutine :: rest => s.goroutine.run rest
  | .update now :: rest => (s.col.update now).bind fun col => (⟨col, s.pc⟩ : MockState).run rest
  | .getDiff :: rest =>
    s.col.ring.getDiff.bind fun r => (⟨{ s.col with ring := r.2 }, s.pc⟩ : MockState).run rest

/-- The bound on the counter at each point of the goroutine: below `_max_mock_val` while it
sleeps, at most `_max_mock_val` between `col.val++` and the check. -/
def MockPc.Bound : MockPc → ℕ → Prop
  | .sleeping, n => n < 15
  | .incremented, n => n ≤ 15

/-- A value the counter can hold at some instant: a whole number at most `_max_mock_val`. -/
def IsMockVal (q : ℚ) : Prop := ∃ n : ℕ, n ≤ 15 ∧ q = n

/-- The mock collector's invariant: a well-formed ring with an empty aggregator, whose full
slots hold values of the counter, and a whole counter within the bound of the goroutine's
point. -/
structure MockState.Inv (s : MockState) : Prop where
  wf : s.col.ring.WF
  aggregator : s.col.ring.aggregator = none
  slots : ValueRing.SlotsIn (fun v => IsMockVal v.value) s.col.ring
  val : ∃ n : ℕ, s.pc.Bound n ∧ s.col.val = n

private theorem isMockVal_of_bound {pc : MockPc} {n : ℕ} (h : pc.Bound n) : IsMockVal n := by
  cases pc
  · exact ⟨n, Nat.le_of_lt h, rfl⟩
  · exact ⟨n, h, rfl⟩

theorem MockState.goroutine_ring (s : MockState) : s.goroutine.col.ring = s.col.ring := by
  obtain ⟨col, pc⟩ := s
  cases pc <;> rfl

/-- A statement of the goroutine keeps the counter within the bound of the point it reaches. -/
theorem MockState.Inv.goroutine {s : MockState} (h : s.Inv) : s.goroutine.Inv := by
  have hring := s.goroutine_ring
  refine ⟨hring ▸ h.wf, hring ▸ h.aggregator, hring ▸ h.slots, ?_⟩
  obtain ⟨n, hn, hval⟩ := h.val
  obtain ⟨col, pc⟩ := s
  cases pc with
  | sleeping =>
    exact ⟨n + 1, Nat.succ_le_of_lt hn, show col.val + 1 = _ by rw [hval, Nat.cast_succ]⟩
  | incremented =>
    show ∃ m : ℕ, m < 15 ∧ (if col.val ≥ maxMockVal then 2 else col.val) = m
    rw [hval, maxMockVal]
    split_ifs with hmax
    · exact ⟨2, by decide, by norm_cast⟩
    · have hlt : ((n : ℕ) : ℚ) < (15 : ℕ) := by push_cast; exact lt_of_not_le hmax
      exact ⟨n, Nat.cast_lt.1 hlt, rfl⟩

/-- Every event keeps the invariant, and none panics. -/
theorem MockState.Inv.run {s : MockState} (h : s.Inv) (events : List MockEvent) :
    ∃ s', s.run events = some s' ∧ s'.Inv := by
  induction events generalizing s with
  | nil => exact ⟨s, rfl, h⟩
  | cons e events ih =>
    cases e with
    | goroutine => exact ih h.goroutine
    | update now =>
      obtain ⟨n, hn, hval⟩ := h.val
      obtain ⟨ring', hadd, hw', hagg', hP', -⟩ := h.wf.slotsIn_add h.aggregator h.slots now
        (v := ⟨s.col.val⟩) (hval ▸ isMockVal_of_bound hn)
      have hupd : s.col.update now = some { s.col with ring := ring' } := by
        rw [MockCollector.update, ValueRing.addValue, hadd]
        rfl
      obtain ⟨s', hrun, hinv⟩ := @ih ⟨{ s.col with ring := ring' }, s.pc⟩
        ⟨hw', hagg', hP', h.val⟩
      exact ⟨s', by rw [MockState.run, hupd]; exact hrun, hinv⟩
    | getDiff =>
      obtain ⟨answer, ring', hd, hw', hagg', hP'⟩ := h.wf.slotsIn_getDiff h.slots
      obtain ⟨s', hrun, hinv⟩ := @ih ⟨{ s.col with ring := ring' }, s.pc⟩
        ⟨hw', hagg'.trans h.aggregator, hP', h.val⟩
      exact ⟨s', by rw [MockState.run, hd]; exact hrun, hinv⟩

theorem MockState.run_replicate_goroutine (s : MockState) (n : ℕ) (rest : List MockEvent) :
    s.run (List.replicate n .goroutine ++ rest) = (MockState.goroutine^[n] s).run rest := by
  induction n generalizing s with
  | zero => rfl
  | succ n ih =>
    rw [List.replicate_succ, List.cons_append, MockState.run, ih]
    rfl

/-- A round of the goroutine below `_max_mock_val - 1`: `col.val++`, and no reset. -/
private theorem MockState.goroutine_round (r : ValueRing StoredValue) {n : ℕ} (hn : n + 1 < 15) :
    MockState.goroutine^[2] ⟨⟨n, r⟩, .sleeping⟩ = ⟨⟨(n + 1 : ℕ), r⟩, .sleeping⟩ := by
  have hlt : ((n + 1 : ℕ) : ℚ) < ((15 : ℕ) : ℚ) := Nat.cast_lt.2 hn
  rw [Nat.cast_succ, Nat.cast_ofNat] at hlt
  have hkeep : ¬ ((n : ℚ) + 1 ≥ maxMockVal) := not_le.2 hlt
  show MockState.goroutine ⟨⟨(n : ℚ) + 1, r⟩, .incremented⟩ = _
  dsimp only [MockState.goroutine]
  rw [if_neg hkeep, Nat.cast_succ]

/-- From the counter at `0`, `k ≤ 14` rounds of the goroutine count it up to `k`. -/
private theorem MockState.goroutine_rounds (r : ValueRing StoredValue) {k : ℕ} (hk : k ≤ 14) :
    MockState.goroutine^[2 * k] ⟨⟨0, r⟩, .sleeping⟩ = ⟨⟨k, r⟩, .sleeping⟩ := by
  induction k with
  | zero => rw [Nat.cast_zero]; rfl
  | succ k ih =>
    rw [show 2 * (k + 1) = 2 + 2 * k by omega, Function.iterate_add_apply, ih (by omega),
      goroutine_round r (by omega)]

/-- Fourteen rounds and the next `col.val++` take the counter from `0` to `_max_mock_val`,
before the goroutine checks it. -/
theorem MockState.goroutine_reaches_max (r : ValueRing StoredValue) :
    MockState.goroutine^[29] ⟨⟨0, r⟩, .sleeping⟩ = ⟨⟨15, r⟩, .incremented⟩ := by
  rw [show 29 = 1 + 2 * 14 from rfl, Function.iterate_add_apply, goroutine_rounds r le_rfl]
  show (⟨⟨((14 : ℕ) : ℚ) + 1, r⟩, .incremented⟩ : MockState) = _
  rw [← Nat.cast_succ]
  exact congrArg (fun q : ℚ => (⟨⟨q, r⟩, .incremented⟩ : MockState)) Nat.cast_ofNat

/-- The mock collector of a factory with at least one slot, over every interleaving of the
statements of its goroutine with its `Update`s and the reads of its metric: no call panics, the
counter is a whole number below `_max_mock_val` whenever the goroutine sleeps and at most
`_max_mock_val` between its two statements, and every sample in the ring is a whole number at
most `_max_mock_val`. The bound is reached: after fourteen rounds and the next `col.val++`, an
`Update` before the check stores `_max_mock_val` as the newest sample. -/
theorem registerMockCollector_run_mockVal {f : ValueRingFactory} (hC : 1 ≤ f.length) :
    ∃ col, registerMockCollector f = some col ∧
      (∀ events, ∃ s, (⟨col, .sleeping⟩ : MockState).run events = some s ∧
        (∃ n : ℕ, s.pc.Bound n ∧ s.col.val = n) ∧
        ∀ slot ∈ s.col.ring.values, ∀ v, slot.val = some v → IsMockVal v.value) ∧
      ∃ s, (⟨col, .sleeping⟩ : MockState).run (List.replicate 29 .goroutine ++ [.update 0]) =
          some s ∧ s.col.ring.getHeadValue = some (some ⟨15⟩) := by
  obtain ⟨ring₀, h₀, hw₀, -⟩ := ValueRing.newValueRing_wf (V := StoredValue) hC
  obtain ⟨hagg, hempty⟩ : ring₀.aggregator = none ∧ ∀ slot ∈ ring₀.values, slot.val = none := by
    simp only [ValueRingFactory.newValueRing] at h₀
    split_ifs at h₀
    cases h₀
    exact ⟨rfl, fun slot hs => by rw [(List.mem_replicate.1 hs).2]; rfl⟩
  have hslots : ValueRing.SlotsIn (fun v => IsMockVal v.value) ring₀ := fun slot hs v hv => by
    rw [hempty slot (ValueRing.mem_slots.1 hs)] at hv
    cases hv
  have hinit : MockState.Inv ⟨⟨0, ring₀⟩, .sleeping⟩ :=
    ⟨hw₀, hagg, hslots, ⟨0, (by decide : 0 < 15), Nat.cast_zero.symm⟩⟩
  refine ⟨⟨0, ring₀⟩, by simp [registerMockCollector, h₀], fun events => ?_, ?_⟩
  · obtain ⟨s, hrun, hinv⟩ := hinit.run events
    exact ⟨s, hrun, hinv.val, fun slot hs => hinv.slots slot (ValueRing.mem_slots.2 hs)⟩
  · obtain ⟨ring', hadd, -, -, -, hhead⟩ := hw₀.slotsIn_add hagg hslots 0 (v := ⟨15⟩)
      ⟨15, le_rfl, Nat.cast_ofNat.symm⟩
    refine ⟨⟨⟨15, ring'⟩, .incremented⟩, ?_, hhead⟩
    rw [MockState.run_replicate_goroutine, MockState.goroutine_reaches_max, MockState.run,
      MockCollector.update, ValueRing.addValue, hadd]
    rfl

theorem registerMockCollector_run_mockVal_three_slots :
    1 ≤ (⟨3, 1000000000⟩ : ValueRingFactory).length ∧
      ∃ col, registerMockCollector ⟨3, 1000000000⟩ = some col ∧
        (∀ events, ∃ s, (⟨col, .sleeping⟩ : MockState).run events = some s ∧
          (∃ n : ℕ, s.pc.Bound n ∧ s.col.val = n) ∧
          ∀ slot ∈ s.col.ring.values, ∀ v, slot.val = some v → IsMockVal v.value) ∧
        ∃ s, (⟨col, .sleeping⟩ : MockState).run (List.replicate 29 .goroutine ++ [.update 0]) =
            some s ∧ s.col.ring.getHeadValue = some (some ⟨15⟩) :=
  ⟨by decide, registerMockCollector_run_mockVal (by decide)⟩

end BitflowCollector
