import BitflowCollector.ValueRing.Slots

/-!
# `get` as one scan in cyclic order

`get` runs `walkRing` in two loops, from `head - 1` down to `0` and then from the last index
down to `head`, and a `false` from `walkRing` returns from `get` itself. This file reads the two
loops as one loop over the list of indices they visit (`getIndices`), and that list as the
cyclic sequence `(head - 1 - k) mod C` for `k = 0, …, C - 1` of a ring of `C` slots
(`cyclicIndices`): every index of the slice once, newest slot first.

`cyclicScan` is the scan over that sequence, stated on its own: from the zero value, an empty
slot answers what was found so far, a full slot becomes the answer and ends the scan when its
time is before the bound. On a well-formed ring `get` is that scan (`WF.get_eq_cyclicScan`).

## Main definitions

* `BitflowCollector.ValueRing.getIndices`: the indices `get`'s two loops visit, in order.
* `BitflowCollector.ValueRing.cyclicIndices`, `BitflowCollector.ValueRing.cyclicScan`.

## Main results

* `BitflowCollector.ValueRing.get_eq_forIndices`: the two loops are one loop over `getIndices`.
* `BitflowCollector.ValueRing.getIndices_eq_cyclicIndices`.
* `BitflowCollector.ValueRing.WF.get_eq_cyclicScan`.
-/

namespace BitflowCollector

namespace ValueRing

variable {V : Type}

/-- The indices `get`'s loops visit, in the order they visit them: `head - 1` down to `0`,
then the last index down to `head`. -/
def getIndices (ring : ValueRing V) : List Int :=
  forRangeIndices (ring.head - 1) 0 ++ forRangeIndices (ring.values.length - 1) ring.head

/-- The indices `(h - 1 - k) mod C` for `k = 0, …, C - 1`: the slots of a ring of `C` slots
with head `h`, from the newest back to the oldest. -/
def cyclicIndices (C : Nat) (h : Int) : List Int :=
  (List.range C).map fun (k : Nat) => (h - 1 - k) % C

/-- A scan over the slots at the indices `is`, with `acc` the answer so far: an empty slot
answers `acc`; a full slot becomes `acc`, and is the answer when its time is before `before`;
the answer at the end of the indices is `acc`. -/
def scanAt (values : List (TimedValue V)) (before : Int) :
    TimedValue V → List Int → Option (TimedValue V)
  | acc, [] => some acc
  | acc, i :: is => (sliceGet values i).bind fun v =>
    match v.val with
    | none => some acc
    | some _ => if v.time < before then some v else scanAt values before v is

/-- The scan over the slots in cyclic order, newest first, from the zero value. -/
def cyclicScan (values : List (TimedValue V)) (head before : Int) : Option (TimedValue V) :=
  scanAt values before TimedValue.zero (cyclicIndices values.length head)

/-- The early return of `walkRing` ends both loops: they run as one loop over `getIndices`. -/
private theorem get_eq_forIndices (ring : ValueRing V) (before : Int) :
    ring.get before =
      (forIndices (walkRing ring.values before) ring.getIndices TimedValue.zero).map
        Flow.state := by
  simp only [get, getIndices, forRange_eq_forIndices, forIndices_append]
  cases forIndices (walkRing ring.values before) (forRangeIndices (ring.head - 1) 0)
      TimedValue.zero with
  | none => rfl
  | some fl => cases fl <;> rfl

/-- A loop of `walkRing` over a list of indices is `scanAt` over them. -/
private theorem forIndices_walkRing (values : List (TimedValue V)) (before : Int) (is : List Int)
    (acc : TimedValue V) :
    (forIndices (walkRing values before) is acc).map Flow.state = scanAt values before acc is := by
  induction is generalizing acc with
  | nil => rfl
  | cons i is ih =>
    simp only [forIndices, walkRing_eq, scanAt]
    cases sliceGet values i with
    | none => rfl
    | some v =>
      simp only [Option.map_some', Option.some_bind, scanSlot]
      cases v.val with
      | none => rfl
      | some _ =>
        split_ifs
        · rfl
        · exact ih v

theorem mem_getIndices (ring : ValueRing V) (i : Int) :
    i ∈ ring.getIndices ↔ 0 ≤ i ∧ i < ring.head ∨ ring.head ≤ i ∧ i < ring.values.length := by
  simp only [getIndices, List.mem_append, mem_forRangeIndices]
  omega

/-- No index is visited twice: the first loop stays below `head`, the second from `head` up. -/
theorem nodup_getIndices (ring : ValueRing V) : ring.getIndices.Nodup :=
  List.nodup_append.2 ⟨nodup_forRangeIndices _ _, nodup_forRangeIndices _ _,
    fun i h₁ h₂ => by rw [mem_forRangeIndices] at h₁ h₂; omega⟩

/-- With `0 ≤ head ≤ C`, the first loop visits `(head - 1 - k) mod C` for `k < head`, where no
index wraps, and the second the rest, where every index wraps once. -/
private theorem forRangeIndices_append_eq_cyclicIndices {C : Nat} {h : Int} (h0 : 0 ≤ h) (hC : h ≤ C) :
    forRangeIndices (h - 1) 0 ++ forRangeIndices (C - 1) h = cyclicIndices C h := by
  obtain ⟨n, rfl⟩ := Int.eq_ofNat_of_zero_le h0
  obtain ⟨m, rfl⟩ : ∃ m, C = n + m := ⟨C - n, by omega⟩
  rw [forRangeIndices, forRangeIndices, cyclicIndices, List.range_add, List.map_append,
    List.map_map, show ((n : Int) - 1 - 0 + 1).toNat = n by omega,
    show (((n + m : Nat) : Int) - 1 - n + 1).toNat = m by omega]
  congr 1
  · refine List.map_congr_left fun k hk => ?_
    have hk : k < n := List.mem_range.1 hk
    exact (Int.emod_eq_of_lt (by omega) (by omega)).symm
  · refine List.map_congr_left fun k hk => ?_
    have hk : k < m := List.mem_range.1 hk
    have hwrap : (n : Int) - 1 - ((n + k : Nat) : Int) =
        ((n + m : Nat) : Int) - 1 - k + (-1) * ((n + m : Nat) : Int) := by omega
    rw [Function.comp_apply, hwrap, Int.add_mul_emod_self, Int.emod_eq_of_lt (by omega) (by omega)]

theorem WF.getIndices_eq_cyclicIndices {ring : ValueRing V} (hw : ring.WF) :
    ring.getIndices = cyclicIndices ring.values.length ring.head :=
  forRangeIndices_append_eq_cyclicIndices hw.head_nonneg hw.head_lt.le

/-- On a well-formed ring `get` is one scan over the slots in cyclic order, newest first: its two
loops visit every index of the slice once, in the order `(head - 1 - k) mod C`, and the early
return of `walkRing` ends both. -/
theorem WF.get_eq_cyclicScan {ring : ValueRing V} (hw : ring.WF) (before : Int) :
    ring.get before = cyclicScan ring.values ring.head before ∧
      (cyclicScan ring.values ring.head before).isSome ∧
      ring.get before =
        (forIndices (walkRing ring.values before) ring.getIndices TimedValue.zero).map
          Flow.state ∧
      ring.getIndices = cyclicIndices ring.values.length ring.head ∧
      ring.getIndices.Nodup ∧
      ∀ i, i ∈ ring.getIndices ↔ 0 ≤ i ∧ i < ring.values.length := by
  have hscan : ring.get before = cyclicScan ring.values ring.head before := by
    rw [get_eq_forIndices, forIndices_walkRing, hw.getIndices_eq_cyclicIndices, cyclicScan]
  refine ⟨hscan, ?_, get_eq_forIndices ring before, hw.getIndices_eq_cyclicIndices,
    nodup_getIndices ring, fun i => ?_⟩
  · rw [← hscan, hw.get_eq]; rfl
  · have := hw.head_nonneg; have := hw.head_lt
    rw [mem_getIndices]
    omega

theorem get_eq_cyclicScan_three_slots :
    ValueRing.WF
        (⟨0, [⟨9, some 1⟩, ⟨3, some 3⟩, ⟨7, some 2⟩], 1, none, 0⟩ : ValueRing Nat) ∧
      ((⟨0, [⟨9, some 1⟩, ⟨3, some 3⟩, ⟨7, some 2⟩], 1, none, 0⟩ : ValueRing Nat).get 5 =
          cyclicScan [⟨9, some 1⟩, ⟨3, some 3⟩, ⟨7, some (2 : Nat)⟩] 1 5 ∧
        (cyclicScan [⟨9, some 1⟩, ⟨3, some 3⟩, ⟨7, some (2 : Nat)⟩] 1 5).isSome ∧
        (⟨0, [⟨9, some 1⟩, ⟨3, some 3⟩, ⟨7, some 2⟩], 1, none, 0⟩ : ValueRing Nat).get 5 =
          (forIndices (walkRing [⟨9, some 1⟩, ⟨3, some 3⟩, ⟨7, some 2⟩] 5)
            (⟨0, [⟨9, some 1⟩, ⟨3, some 3⟩, ⟨7, some 2⟩], 1, none, 0⟩ : ValueRing Nat).getIndices
            TimedValue.zero).map Flow.state ∧
        (⟨0, [⟨9, some 1⟩, ⟨3, some 3⟩, ⟨7, some 2⟩], 1, none, 0⟩ : ValueRing Nat).getIndices =
          cyclicIndices 3 1 ∧
        List.Nodup
          (⟨0, [⟨9, some 1⟩, ⟨3, some 3⟩, ⟨7, some 2⟩], 1, none, 0⟩ : ValueRing Nat).getIndices ∧
        ∀ i, i ∈ (⟨0, [⟨9, some 1⟩, ⟨3, some 3⟩, ⟨7, some 2⟩], 1, none, 0⟩ :
          ValueRing Nat).getIndices ↔ 0 ≤ i ∧ i < 3) :=
  have hw : ValueRing.WF
      (⟨0, [⟨9, some 1⟩, ⟨3, some 3⟩, ⟨7, some 2⟩], 1, none, 0⟩ : ValueRing Nat) :=
    ⟨by decide, by decide, by decide⟩
  ⟨hw, WF.get_eq_cyclicScan hw 5⟩

end ValueRing

end BitflowCollector
