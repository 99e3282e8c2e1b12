import BitflowCollector.ValueRing.History
import BitflowCollector.ValueRing.Overflow

/-!
# The rate over the window

`GetDiff` answers the rate of a counter over the window `interval`: from the sample `get` finds
when it scans back from the newest sample to the window's start, to the newest sample. Over a
run that commits samples `(t₁, v₁), …, (tₙ, vₙ)` with `AddValue` and otherwise only reads, the
slots hold the last `C` samples newest first and empty slots after them (`Holds`), and the scan
over them ends:

* on the newest kept sample strictly before `tₙ - interval`, if there is one;
* otherwise on the oldest kept sample, at the first empty slot or at the end of the slice.

`windowRate` says this over the samples in commit order (`slotsRate_window`). The oldest kept
sample is the oldest sample of all while the ring is not full, so before the samples span the
window the rate is taken over the whole history, and is not `0`.

## Main definitions

* `BitflowCollector.ValueRing.sampleSlot`, `BitflowCollector.ValueRing.addedSamples`,
  `BitflowCollector.ValueRing.addValueCalls`.
* `BitflowCollector.ValueRing.keptSamples`, `BitflowCollector.ValueRing.windowBase`,
  `BitflowCollector.ValueRing.windowRate`.

## Main results

* `BitflowCollector.ValueRing.scanSlots_state_of_full`: the scan over full slots.
* `BitflowCollector.ValueRing.slotsRate_window`.
* `BitflowCollector.ValueRing.newValueRing_run_windowRate`: the rate after any run of
  `AddValue` calls and reads.
* `BitflowCollector.ValueRing.newValueRing_addValues_getDiff`: the rate before the samples span
  the window.
-/

namespace BitflowCollector

namespace ValueRing

variable {V : Type}

/-! ### The scan over full slots -/

/-- Over full slots, the scan stops at the first sample strictly before the bound, and otherwise
runs to the end with the last slot. -/
theorem scanSlots_of_full (before : Int) (acc : TimedValue V) {L : List (TimedValue V)}
    (hL : ∀ s ∈ L, s.val.isSome) :
    scanSlots before acc L = match L.find? (·.time < before) with
      | some s => .exit s
      | none => .next (L.getLast?.getD acc) := by
  induction L generalizing acc with
  | nil => rfl
  | cons v vs ih =>
    obtain ⟨x, hx⟩ := Option.isSome_iff_exists.1 (hL v (List.mem_cons_self _ _))
    by_cases ht : v.time < before
    · simp [scanSlots, scanSlot, hx, ht]
    · simp only [scanSlots, scanSlot, hx, ht, if_false, Flow.next_andThen,
        ih v fun s hs => hL s (List.mem_cons_of_mem _ hs), List.find?_cons, decide_False,
        List.getLast?_cons]
      cases vs.find? (·.time < before) <;> rfl

/-- Over full slots followed by an empty one, or by nothing, the scan ends on the first sample
strictly before the bound, and otherwise on the last full slot. -/
theorem scanSlots_state_of_full (before : Int) (acc : TimedValue V) {L R : List (TimedValue V)}
    (hL : ∀ s ∈ L, s.val.isSome) (hR : ∀ s ∈ R.head?, s.val = none) :
    (scanSlots before acc (L ++ R)).state =
      (L.find? (·.time < before)).getD (L.getLast?.getD acc) := by
  rw [scanSlots_append, scanSlots_of_full before acc hL]
  cases L.find? (·.time < before) with
  | some s => rfl
  | none =>
    cases R with
    | nil => rfl
    | cons r rs => simp [scanSlots, scanSlot, hR r rfl, Flow.state]

/-! ### Runs of `AddValue` calls and reads -/

/-- The slot that `AddValue(v)` at `t` commits for the sample `(t, v)`. -/
def sampleSlot (s : Int × ℚ) : TimedValue StoredValue := ⟨s.1, some ⟨s.2⟩⟩

/-- The sample an `AddValue` call commits. -/
def Op.addedSample : Op StoredValue → Option (Int × ℚ)
  | .add now val => some (now, val.value)
  | _ => none

/-- The samples the `AddValue` calls of a run commit, in order. -/
def addedSamples (ops : List (Op StoredValue)) : List (Int × ℚ) := ops.filterMap Op.addedSample

/-- The calls of a run that commits its samples with `AddValue` and otherwise only reads. -/
def Op.AddsOrReads : Op V → Prop
  | .add _ _ | .getHead | .getDiff => True
  | _ => False

/-- The calls `AddValue(v)` at `t` for the samples `(t, v)`, in order. -/
def addValueCalls (samples : List (Int × ℚ)) : List (Op StoredValue) :=
  samples.map fun s => .add s.1 ⟨s.2⟩

@[simp] theorem addedSamples_addValueCalls (samples : List (Int × ℚ)) :
    addedSamples (addValueCalls samples) = samples := by
  induction samples with
  | nil => rfl
  | cons s ss ih => simpa [addedSamples, addValueCalls, Op.addedSample] using ih

/-- Over a run of `AddValue` calls and reads, the history gains the samples' slots, newest
first. -/
theorem History.run_addsOrReads (commits : List (TimedValue StoredValue))
    {ops : List (Op StoredValue)} (hops : ∀ op ∈ ops, op.AddsOrReads) :
    History.run ⟨commits, []⟩ ops =
      ⟨(addedSamples ops).reverse.map sampleSlot ++ commits, []⟩ := by
  induction ops generalizing commits with
  | nil => rfl
  | cons op ops ih =>
    have hrest := fun o ho => hops o (List.mem_cons_of_mem _ ho)
    cases op with
    | add now val =>
      show History.run ⟨sampleSlot (now, val.value) :: commits, []⟩ ops = _
      rw [ih _ hrest]; simp [addedSamples, Op.addedSample]
    | getHead => exact ih commits hrest
    | getDiff => exact ih commits hrest
    | _ => exact (hops _ (List.mem_cons_self _ _)).elim

/-- From a ring `NewValueRing` builds with a positive length, a run of `AddValue` calls and reads
in which no `GetDiff` meets a negative rate leaves the samples' slots newest first, then the
empty slots. -/
theorem newValueRing_run_addsOrReads (f : ValueRingFactory) (hC : 1 ≤ f.length)
    (ops : List (Op StoredValue)) (hops : ∀ op ∈ ops, op.AddsOrReads) :
    ∃ ring₀ : ValueRing StoredValue, f.newValueRing = some ring₀ ∧
      ((∀ fresh val, Out.diff fresh val ∈ (ring₀.run ops).1 → 0 ≤ fresh) →
        ∃ ring, (ring₀.run ops).2 = some ring ∧ ring.WF ∧ ring.interval = f.interval ∧
          ring.slots = ((addedSamples ops).reverse.map sampleSlot ++
            List.replicate f.length.toNat TimedValue.zero).take f.length.toNat) := by
  obtain ⟨ring₀, h₀, hinit, hl₀, hi₀⟩ := newValueRing_holds (V := StoredValue) hC
  refine ⟨ring₀, h₀, fun hd => ?_⟩
  obtain ⟨ring, h, hh, hl⟩ := hinit.run ops hd
  obtain ⟨ring', h', -, -, hi⟩ := hinit.wf.run ops
  obtain rfl : ring = ring' := Option.some.inj (h.symm.trans h')
  have hC' : ring.values.length = f.length.toNat := by omega
  refine ⟨ring, h, hh.wf, hi.trans hi₀, ?_⟩
  rw [hh.slots_eq, History.run_addsOrReads [] hops, List.append_nil, hC']

/-! ### The rate over the samples -/

/-- The samples `lo, …, n` a ring of `C` slots keeps of `samples`, in commit order:
`lo = max 1 (n - C + 1)`. -/
def keptSamples (C : Nat) (samples : List (Int × ℚ)) : List (Int × ℚ) :=
  samples.drop (samples.length - C)

/-- The sample `j` the rate is taken against, for the newest sample `last`: the kept sample of
largest index strictly before `last.1 - w`, or the oldest kept sample `lo` when there is none. -/
def windowBase (C : Nat) (w : Int) (last : Int × ℚ) (samples : List (Int × ℚ)) : Int × ℚ :=
  ((keptSamples C samples).reverse.find? fun s => s.1 < last.1 - w).getD
    ((keptSamples C samples).headD last)

/-- The rate from the sample `(tⱼ, vⱼ)` to the newest sample `(tₙ, vₙ)`: `0` when `tⱼ = tₙ`, and
`(vₙ - vⱼ) / (tₙ - tⱼ)` in seconds otherwise. -/
def sampleRate (base last : Int × ℚ) : ℚ :=
  if base.1 = last.1 then 0 else (last.2 - base.2) / (((last.1 - base.1 : Int) : ℚ) / 1000000000)

/-- The rate over the window `w` after the samples `(t₁, v₁), …, (tₙ, vₙ)` in commit order, for a
ring of `C` slots: `0` without samples, and otherwise the rate from the sample `j` of
`windowBase` to the newest sample. -/
def windowRate (C : Nat) (w : Int) (samples : List (Int × ℚ)) : ℚ :=
  match samples.getLast? with
  | none => 0
  | some last => sampleRate (windowBase C w last samples) last

theorem take_sampleSlots (C : Nat) (samples : List (Int × ℚ)) :
    (samples.reverse.map sampleSlot ++ List.replicate C TimedValue.zero).take C =
      (keptSamples C samples).reverse.map sampleSlot ++
        List.replicate (C - samples.length) TimedValue.zero := by
  rw [List.take_append_eq_append_take, List.take_replicate, ← List.map_take, List.length_map,
    List.length_reverse, min_eq_left (Nat.sub_le _ _), keptSamples,
    ← List.reverse_reverse (samples.reverse.take C), List.reverse_take, List.reverse_reverse,
    List.length_reverse]

/-- The scan from the newest of the samples' slots ends on `windowBase`. -/
theorem scanSlots_sampleSlots {C : Nat} (hC : 0 < C) (w : Int) (init : List (Int × ℚ))
    (last : Int × ℚ) :
    (scanSlots (last.1 - w) TimedValue.zero
        (((init ++ [last]).reverse.map sampleSlot ++
          List.replicate C TimedValue.zero).take C)).state =
      sampleSlot (windowBase C w last (init ++ [last])) := by
  have hkept : keptSamples C (init ++ [last]) = init.drop (init.length + 1 - C) ++ [last] := by
    rw [keptSamples, List.length_append, List.length_singleton,
      List.drop_append_of_le_length (by omega)]
  have hhead : (keptSamples C (init ++ [last])).head? =
      some ((keptSamples C (init ++ [last])).headD last) := by
    rw [hkept]; cases List.drop (init.length + 1 - C) init <;> rfl
  rw [take_sampleSlots, scanSlots_state_of_full _ _
    (fun s hs => by obtain ⟨x, -, rfl⟩ := List.mem_map.1 hs; rfl)
    (by simp [List.head?_replicate, TimedValue.zero]), List.find?_map, List.getLast?_map,
    List.getLast?_reverse, hhead, Option.map_some', Option.getD_some, Option.getD_map]
  rfl

/-- The rate of slots led by a sample, once the scan is known to end on the sample `base`. -/
theorem slotsRate_sampleSlot_cons (w : Int) (last : Int × ℚ)
    {tail : List (TimedValue StoredValue)} {base : Int × ℚ}
    (h : (scanSlots (last.1 - w) TimedValue.zero (sampleSlot last :: tail)).state =
      sampleSlot base) :
    slotsRate w (sampleSlot last :: tail) = sampleRate base last := by
  simp only [slotsRate]
  rw [show (sampleSlot last).time = last.1 from rfl, h]
  simp [sampleSlot, sampleRate, StoredValue.diffValue, seconds, sub_eq_zero, eq_comm]

/-- The rate of the slots after the samples is `windowRate`. -/
theorem slotsRate_window {C : Nat} (hC : 0 < C) (w : Int) (samples : List (Int × ℚ)) :
    slotsRate w ((samples.reverse.map sampleSlot ++ List.replicate C TimedValue.zero).take C) =
      windowRate C w samples := by
  rcases List.eq_nil_or_concat samples with rfl | ⟨init, last, rfl⟩
  · obtain ⟨k, rfl⟩ : ∃ k, C = k + 1 := ⟨C - 1, by omega⟩
    simp [List.replicate_succ, slotsRate, windowRate, TimedValue.zero]
  · rw [List.concat_eq_append]
    have hslots : ((init ++ [last]).reverse.map sampleSlot ++
        List.replicate C TimedValue.zero).take C =
        sampleSlot last :: ((init.reverse.map sampleSlot ++
          List.replicate C TimedValue.zero).take (C - 1)) := by
      obtain ⟨k, rfl⟩ : ∃ k, C = k + 1 := ⟨C - 1, by omega⟩
      simp
    have hscan := scanSlots_sampleSlots hC w init last
    rw [hslots] at hscan ⊢
    rw [slotsRate_sampleSlot_cons w last hscan]
    simp [windowRate]

/-- The sample `windowBase` is one of the samples. -/
theorem windowBase_mem (C : Nat) (w : Int) {last : Int × ℚ} {samples : List (Int × ℚ)}
    (hlast : samples.getLast? = some last) : windowBase C w last samples ∈ samples := by
  have hkept : ∀ s ∈ keptSamples C samples, s ∈ samples := fun s hs => List.mem_of_mem_drop hs
  unfold windowBase
  cases hf : (keptSamples C samples).reverse.find? fun s => s.1 < last.1 - w with
  | some s => exact hkept s (List.mem_reverse.1 (List.mem_of_find?_eq_some hf))
  | none =>
    cases hk : keptSamples C samples with
    | nil => exact List.mem_of_getLast?_eq_some hlast
    | cons s ss => exact hkept s (by rw [hk]; exact List.mem_cons_self _ _)

/-- With timestamps in commit order, no sample is later than the newest. -/
private theorem le_of_pairwise {samples : List (Int × ℚ)}
    (hsorted : (samples.map Prod.fst).Pairwise (· ≤ ·)) {last s : Int × ℚ}
    (hlast : samples.getLast? = some last) (hs : s ∈ samples) :
    s.1 ≤ last.1 := by
  obtain ⟨init, rfl⟩ := List.getLast?_eq_some_iff.1 hlast
  rcases List.mem_append.1 hs with hs | hs
  · rw [List.map_append, List.pairwise_append] at hsorted
    exact hsorted.2.2 _ (List.mem_map_of_mem _ hs) _ (by simp)
  · rw [List.mem_singleton.1 hs]

/-- `AddValue` calls answer nothing and keep `previousDiff`. -/
theorem run_addValueCalls (ring : ValueRing StoredValue) (samples : List (Int × ℚ)) :
    (∀ out ∈ (ring.run (addValueCalls samples)).1, out = .done) ∧
      ∀ ring', (ring.run (addValueCalls samples)).2 = some ring' →
        ring'.previousDiff = ring.previousDiff := by
  induction samples generalizing ring with
  | nil => exact ⟨fun _ h => (List.not_mem_nil _ h).elim, fun r h => by cases h; rfl⟩
  | cons s ss ih =>
    cases hs : ring.step (.add s.1 ⟨s.2⟩) with
    | none => simp [addValueCalls, run, hs]
    | some p =>
      obtain ⟨r, hr, rfl⟩ := Option.map_eq_some'.1 hs
      rw [addValueCalls, List.map_cons, run_cons_of_step hs]
      exact ⟨fun out hm => (List.mem_cons.1 hm).elim id ((ih r).1 out),
        fun r' h => ((ih r).2 r' h).trans ((flushHead_previousDiff hr).trans rfl)⟩

/-! ### The rate after a run -/

/-- From a ring `NewValueRing` builds with a positive length `C` and the window `w`, a run of
`AddValue` calls and reads in which no `GetDiff` meets a negative rate ends with
`getDiffInterval w` at `windowRate` of the committed samples, and `GetDiff` answers it when it is
not negative. With timestamps in commit order, `get` ends on the sample `j` of `windowBase`, which
is not later than the newest sample: `DiffValue` only ever gets a positive interval. -/
theorem newValueRing_run_windowRate (f : ValueRingFactory) (hC : 1 ≤ f.length)
    (ops : List (Op StoredValue)) (hops : ∀ op ∈ ops, op.AddsOrReads)
    (hsorted : ((addedSamples ops).map Prod.fst).Pairwise (· ≤ ·)) :
    ∃ ring₀ : ValueRing StoredValue, f.newValueRing = some ring₀ ∧
      ((∀ fresh val, Out.diff fresh val ∈ (ring₀.run ops).1 → 0 ≤ fresh) →
        ∃ ring, (ring₀.run ops).2 = some ring ∧
          ring.getDiffInterval f.interval =
            some (windowRate f.length.toNat f.interval (addedSamples ops)) ∧
          (0 ≤ windowRate f.length.toNat f.interval (addedSamples ops) →
            ring.getDiff = some (windowRate f.length.toNat f.interval (addedSamples ops),
              { ring with
                previousDiff := windowRate f.length.toNat f.interval (addedSamples ops) })) ∧
          ∀ last, (addedSamples ops).getLast? = some last →
            ring.get (last.1 - f.interval) =
              some (sampleSlot (windowBase f.length.toNat f.interval last (addedSamples ops))) ∧
            (windowBase f.length.toNat f.interval last (addedSamples ops)).1 ≤ last.1) := by
  obtain ⟨ring₀, h₀, hrun⟩ := newValueRing_run_addsOrReads f hC ops hops
  refine ⟨ring₀, h₀, fun hd => ?_⟩
  obtain ⟨ring, h, hw, hi, hs⟩ := hrun hd
  have hrate : slotsRate ring.interval ring.slots =
      windowRate f.length.toNat f.interval (addedSamples ops) := by
    rw [hi, hs, slotsRate_window (by omega)]
  refine ⟨ring, h, by rw [← hrate, hw.getDiffInterval_eq, hi], fun hnn => ?_,
    fun last hlast => ⟨?_, le_of_pairwise hsorted hlast (windowBase_mem _ _ hlast)⟩⟩
  · rw [(hw.getDiff_spec).1 (hrate ▸ hnn), hrate]
  · obtain ⟨init, hinit⟩ := List.getLast?_eq_some_iff.1 hlast
    rw [hw.get_eq, hs, hinit, scanSlots_sampleSlots (by omega)]

unseal Rat.add Rat.sub Rat.mul Rat.inv in
/-- Three slots, a window of one second, the samples `0` and `10` one second apart and a
`GetDiff` after each: the second meets the rate `10`. -/
theorem run_windowRate_three_slots :
    (∀ op ∈ ([.add 0 ⟨0⟩, .getDiff, .add 1000000000 ⟨10⟩, .getDiff] : List (Op StoredValue)),
        op.AddsOrReads) ∧
      ((addedSamples [.add 0 ⟨0⟩, .getDiff, .add 1000000000 ⟨10⟩, .getDiff]).map
        Prod.fst).Pairwise (· ≤ ·) ∧
      ∃ ring₀ : ValueRing StoredValue,
        (⟨3, 1000000000⟩ : ValueRingFactory).newValueRing = some ring₀ ∧
        (∀ fresh val, Out.diff fresh val ∈
          (ring₀.run [.add 0 ⟨0⟩, .getDiff, .add 1000000000 ⟨10⟩, .getDiff]).1 → 0 ≤ fresh) ∧
        ∃ ring, (ring₀.run [.add 0 ⟨0⟩, .getDiff, .add 1000000000 ⟨10⟩, .getDiff]).2 =
            some ring ∧
          ring.getDiffInterval 1000000000 = some (windowRate (3 : Int).toNat 1000000000
            (addedSamples [.add 0 ⟨0⟩, .getDiff, .add 1000000000 ⟨10⟩, .getDiff])) ∧
          (0 ≤ windowRate (3 : Int).toNat 1000000000
              (addedSamples [.add 0 ⟨0⟩, .getDiff, .add 1000000000 ⟨10⟩, .getDiff]) →
            ring.getDiff = some (windowRate (3 : Int).toNat 1000000000
                (addedSamples [.add 0 ⟨0⟩, .getDiff, .add 1000000000 ⟨10⟩, .getDiff]),
              { ring with
                previousDiff := windowRate (3 : Int).toNat 1000000000
                  (addedSamples [.add 0 ⟨0⟩, .getDiff, .add 1000000000 ⟨10⟩, .getDiff]) })) ∧
          ∀ last,
            (addedSamples [.add 0 ⟨0⟩, .getDiff, .add 1000000000 ⟨10⟩, .getDiff]).getLast? =
              some last →
            ring.get (last.1 - 1000000000) = some (sampleSlot (windowBase (3 : Int).toNat
              1000000000 last
                (addedSamples [.add 0 ⟨0⟩, .getDiff, .add 1000000000 ⟨10⟩, .getDiff]))) ∧
            (windowBase (3 : Int).toNat 1000000000 last
              (addedSamples [.add 0 ⟨0⟩, .getDiff, .add 1000000000 ⟨10⟩, .getDiff])).1 ≤
                last.1 := by
  have hops : ∀ op ∈ ([.add 0 ⟨0⟩, .getDiff, .add 1000000000 ⟨10⟩, .getDiff] :
      List (Op StoredValue)), op.AddsOrReads := by
    simp [Op.AddsOrReads]
  have hsorted : ((addedSamples [.add 0 ⟨0⟩, .getDiff, .add 1000000000 ⟨10⟩, .getDiff]).map
      Prod.fst).Pairwise (· ≤ ·) := by
    decide
  obtain ⟨ring₀, h₀, hrun⟩ :=
    newValueRing_run_windowRate ⟨3, 1000000000⟩ (by decide) _ hops hsorted
  obtain rfl : ring₀ = ⟨1000000000, List.replicate 3 TimedValue.zero, 0, none, 0⟩ :=
    (Option.some.inj h₀).symm
  refine ⟨hops, hsorted, _, h₀, ?hd, hrun ?hd⟩
  exact diff_nonneg_of_forall_freshNonneg _ (by decide)

/-! ### Before the samples span the window -/

/-- While the ring keeps every sample and every sample is later than the window's start, the
rate is taken from the first sample. -/
theorem windowRate_of_unspanned {C : Nat} {w : Int} {samples : List (Int × ℚ)}
    {first last : Int × ℚ} (hfirst : samples.head? = some first)
    (hlast : samples.getLast? = some last) (hn : samples.length ≤ C)
    (hspan : ∀ s ∈ samples, last.1 - w < s.1) :
    windowRate C w samples = sampleRate first last := by
  have hkept : keptSamples C samples = samples := by
    rw [keptSamples, Nat.sub_eq_zero_of_le hn, List.drop_zero]
  have hnone : (samples.reverse.find? fun s => s.1 < last.1 - w) = none :=
    List.find?_eq_none.2 fun s hs => by simpa using (hspan s (List.mem_reverse.1 hs)).le
  obtain ⟨tl, rfl⟩ := List.head?_eq_some_iff.1 hfirst
  simp only [windowRate, hlast, windowBase, hkept, hnone, Option.getD_none, List.headD_cons]

/-- Before the samples span the window: from a ring `NewValueRing` builds, after `n ≥ 1`
`AddValue` calls, at most as many as the ring has slots, whose timestamps are all later than
`tₙ - w`, `GetDiff` finds the rate over the whole history, from the first sample to the newest.
It answers that rate when it is not negative, and `0` otherwise. -/
theorem newValueRing_addValues_getDiff (f : ValueRingFactory) (samples : List (Int × ℚ))
    {first last : Int × ℚ} (hfirst : samples.head? = some first)
    (hlast : samples.getLast? = some last) (hn : (samples.length : Int) ≤ f.length)
    (hspan : ∀ s ∈ samples, last.1 - f.interval < s.1) :
    ∃ ring₀ : ValueRing StoredValue, f.newValueRing = some ring₀ ∧
      (ring₀.run (addValueCalls samples ++ [.getDiff])).1.getLast? =
        some (.diff (sampleRate first last) (max 0 (sampleRate first last))) := by
  have hlen : 1 ≤ samples.length := List.length_pos.2 fun h => by simp [h] at hlast
  have hops : ∀ op ∈ addValueCalls samples, op.AddsOrReads := fun op hop => by
    obtain ⟨s, -, rfl⟩ := List.mem_map.1 hop; trivial
  obtain ⟨ring₀, h₀, hrun⟩ := newValueRing_run_addsOrReads f (by omega) _ hops
  obtain ⟨hdone, hprev⟩ := run_addValueCalls ring₀ samples
  obtain ⟨ring, h, hw, hi, hs⟩ := hrun fun _ _ hm => absurd (hdone _ hm) (by simp)
  have hrate : slotsRate ring.interval ring.slots = sampleRate first last := by
    rw [hi, hs, addedSamples_addValueCalls, slotsRate_window (by omega),
      windowRate_of_unspanned hfirst hlast (by omega) hspan]
  have hp : ring.previousDiff = 0 := (hprev ring h).trans (newValueRing_previousDiff h₀)
  refine ⟨ring₀, h₀, ?_⟩
  rw [run_append h]
  by_cases hneg : sampleRate first last < 0
  · obtain ⟨values', hstep, -⟩ := hw.step_getDiff_of_neg (hrate ▸ hneg)
    rw [run_cons_of_step hstep, hrate, hp, max_eq_left hneg.le]
    simp [run]
  · have hstep := hw.step_getDiff_of_nonneg (hrate ▸ not_lt.1 hneg)
    rw [run_cons_of_step hstep, hrate, max_eq_right (not_lt.1 hneg)]
    simp [run]

theorem addValues_getDiff_ten_seconds :
    ([(1000000000, 0), (2000000000, 10)] : List (Int × ℚ)).head? = some (1000000000, 0) ∧
      ([(1000000000, 0), (2000000000, 10)] : List (Int × ℚ)).getLast? = some (2000000000, 10) ∧
      (([(1000000000, 0), (2000000000, 10)] : List (Int × ℚ)).length : Int) ≤
        (⟨3, 10000000000⟩ : ValueRingFactory).length ∧
      (∀ s ∈ ([(1000000000, 0), (2000000000, 10)] : List (Int × ℚ)),
        (2000000000 : Int) - (⟨3, 10000000000⟩ : ValueRingFactory).interval < s.1) ∧
      ∃ ring₀ : ValueRing StoredValue,
        (⟨3, 10000000000⟩ : ValueRingFactory).newValueRing = some ring₀ ∧
        (ring₀.run (addValueCalls [(1000000000, 0), (2000000000, 10)] ++ [.getDiff])).1.getLast? =
          some (.diff (sampleRate (1000000000, 0) (2000000000, 10))
            (max 0 (sampleRate (1000000000, 0) (2000000000, 10)))) :=
  have hspan : ∀ s ∈ ([(1000000000, 0), (2000000000, 10)] : List (Int × ℚ)),
      (2000000000 : Int) - (⟨3, 10000000000⟩ : ValueRingFactory).interval < s.1 := by decide
  ⟨rfl, rfl, by decide, hspan,
    newValueRing_addValues_getDiff ⟨3, 10000000000⟩ _ rfl rfl (by decide) hspan⟩

unseal Rat.add Rat.sub Rat.mul Rat.inv in
/-- Three slots, a window of ten seconds and the samples `0` and `10` one second apart: the ring
does not yet span the window, and `GetDiff` answers `10`. -/
theorem getDiff_before_window_spanned :
    ((⟨3, 10000000000⟩ : ValueRingFactory).newValueRing.map fun ring : ValueRing StoredValue =>
      (ring.run [.add 1000000000 ⟨0⟩, .add 2000000000 ⟨10⟩, .getDiff]).1) =
      some [.done, .done, .diff 10 10] := by
  decide

end ValueRing

end BitflowCollector
