import BitflowCollector.ValueRing.Loops

/-!
# The slots of a well-formed ring

A ring is *well formed* (`ValueRing.WF`) when its slice is not empty and its head indexes it:
the states `NewValueRing` builds from a positive length, and every operation keeps them. Its
*slots* are the slice read newest first, from `head - 1` down to `0` and then from the last
index down to `head`; they are `(values.rotate head).reverse`.

On a well-formed ring every reader and writer of `value_ring.go` is a function of the slots:

* `getHead` answers the first slot (`WF.getHead_eq`), and `get` is `scanSlots` over the slots
  (`WF.get_eq`), so `getDiffInterval` is `slotsRate` of the slots (`WF.getDiffInterval_eq`);
* `FlushHead` puts the new sample in front and drops the last slot (`WF.flushHead_spec`);
* `flush (head - 2)`, called by `GetDiff` on a negative rate, empties the run of full slots that
  follows the newest one. When `head` is `0` or `1` its first loop starts at the end of the
  slice, and a run that reaches the oldest slot goes on to empty the newest slot too
  (`flushSlots`, `WF.flush_spec`).

## Main definitions

* `BitflowCollector.ValueRing.WF`, `BitflowCollector.ValueRing.slots`.
* `BitflowCollector.ValueRing.flushSlots`, `BitflowCollector.ValueRing.slotsRate`.

## Main results

* `BitflowCollector.ValueRing.WF.getHead_eq`, `WF.get_eq`, `WF.getDiffInterval_eq`.
* `BitflowCollector.ValueRing.WF.flushHead_spec`, `WF.flush_spec`.
-/

namespace BitflowCollector

namespace ValueRing

variable {V : Type}

/-- The states of a ring with a positive length: the head indexes the slice. -/
structure WF (ring : ValueRing V) : Prop where
  length_pos : 0 < ring.values.length
  head_nonneg : 0 ≤ ring.head
  head_lt : ring.head < ring.values.length

/-- The slots newest first: `head - 1` down to `0`, then the last slot down to `head`. -/
def slots (ring : ValueRing V) : List (TimedValue V) :=
  (ring.values.rotate ring.head.toNat).reverse

theorem length_slots (ring : ValueRing V) : ring.slots.length = ring.values.length := by
  simp [slots]

/-! ### A slice cut at the head -/

/-- A slice cut at the head: the slots before it, the slot it indexes, the slots after it. -/
theorem WF.exists_split {ring : ValueRing V} (hw : ring.WF) :
    ∃ P y Q, ring.values = P ++ y :: Q ∧ ring.head = P.length := by
  have h0 := hw.head_nonneg
  have h1 := hw.head_lt
  have h2 : ring.head.toNat < ring.values.length := by omega
  refine ⟨ring.values.take ring.head.toNat, ring.values[ring.head.toNat],
    ring.values.drop (ring.head.toNat + 1), ?_, ?_⟩
  · rw [List.getElem_cons_drop, List.take_append_drop]
  · simp only [List.length_take]; omega

theorem slots_of_append {ring : ValueRing V} {A B : List (TimedValue V)}
    (hv : ring.values = A ++ B) (hh : ring.head = A.length) :
    ring.slots = A.reverse ++ B.reverse := by
  simp [slots, hv, hh]

theorem slots_of_split {ring : ValueRing V} {P Q : List (TimedValue V)} {y : TimedValue V}
    (hv : ring.values = P ++ y :: Q) (hh : ring.head = P.length) :
    ring.slots = P.reverse ++ Q.reverse ++ [y] := by
  simp [slots_of_append hv hh]

theorem getHead_of_split {ring : ValueRing V} {P Q : List (TimedValue V)} {y : TimedValue V}
    (hv : ring.values = P ++ y :: Q) (hh : ring.head = P.length) :
    ring.getHead = ring.slots.head? := by
  rw [slots_of_split hv hh, getHead, hv, hh]
  rcases P.eq_nil_or_concat with rfl | ⟨P, u, rfl⟩
  · rw [if_pos (by simp), sliceGet_of_eq (n := Q.length) (by simp), List.nil_append,
      List.reverse_nil, List.nil_append, ← List.reverse_cons, List.head?_reverse,
      List.getLast?_eq_getElem?]
    rfl
  · rw [if_neg (by simp), sliceGet_of_eq (n := P.length) (by simp)]
    simp [List.getElem_append_right]

theorem get_of_split {ring : ValueRing V} {P Q : List (TimedValue V)} {y : TimedValue V}
    (hv : ring.values = P ++ y :: Q) (hh : ring.head = P.length) (before : Int) :
    ring.get before = some (scanSlots before TimedValue.zero ring.slots).state := by
  simp only [slots_of_split hv hh, get]
  rw [forRange_walkRing before (A := []) (B := P) (C := y :: Q) (by simp [hv]) (k := 0)
    (by simp) (by simp [hh]), List.append_assoc, scanSlots_append, ← List.reverse_cons]
  cases scanSlots before TimedValue.zero P.reverse with
  | exit r => rfl
  | next r =>
    simp only [Option.bind_eq_bind, Option.some_bind, Flow.next_andThen]
    rw [forRange_walkRing before (A := P) (B := y :: Q) (C := []) (by simp [hv])
      (j := ring.values.length - 1) (k := ring.head) hh (by simp [hv])]
    rfl

theorem flushHead_of_split {ring : ValueRing V} {P Q : List (TimedValue V)} {y : TimedValue V}
    (hv : ring.values = P ++ y :: Q) (hh : ring.head = P.length) (now : Int) :
    ring.flushHead now = some { ring with
      values := P ++ ⟨now, ring.aggregator⟩ :: Q
      head := ((P.length + 1) % (P.length + Q.length + 1) : Nat)
      aggregator := none } := by
  have hlen : ring.values.length = P.length + Q.length + 1 := by simp [hv]; omega
  have hset : ring.values.set P.length ⟨now, ring.aggregator⟩ =
      P ++ ⟨now, ring.aggregator⟩ :: Q := by
    simp [hv, List.set_append_right]
  rw [flushHead, hh, sliceSet_natCast (by omega), hset, hlen]
  simp only [Option.map_some', Option.some.injEq, ValueRing.mk.injEq, true_and, and_true]
  split_ifs with h
  · rw [show P.length + 1 = P.length + Q.length + 1 by omega, Nat.mod_self]; rfl
  · rw [Nat.mod_eq_of_lt (by omega)]; push_cast; rfl

theorem slots_commit {ring : ValueRing V} {P Q : List (TimedValue V)} {x : TimedValue V}
    (hv : ring.values = P ++ x :: Q)
    (hh : ring.head = ((P.length + 1) % (P.length + Q.length + 1) : Nat)) :
    ring.slots = x :: P.reverse ++ Q.reverse := by
  have hlen : ring.values.length = P.length + Q.length + 1 := by simp [hv]; omega
  rw [slots, hh, Int.toNat_ofNat, ← hlen, List.rotate_mod,
    show ring.values = (P ++ [x]) ++ Q by simp [hv],
    show P.length + 1 = (P ++ [x]).length by simp, List.rotate_append_length_eq]
  simp

/-! ### `flush` -/

/-- The slots after `flush (head - 2)`, as a function of the slots before it: the run of full
slots after the newest is emptied; with `lowHead`, a run that reaches the oldest slot goes on
to empty the newest one too. -/
def flushSlots (lowHead : Bool) : List (TimedValue V) → List (TimedValue V)
  | [] => []
  | s0 :: tail => match clearRun tail with
    | .exit l => s0 :: l
    | .next l => (if lowHead then { s0 with val := none } else s0) :: l

private theorem flush_of_two_le {ring : ValueRing V} {P Q : List (TimedValue V)} {w u y : TimedValue V}
    (hv : ring.values = P ++ [w] ++ u :: y :: Q) (hh : ring.head = P.length + 2) :
    ∃ values', ring.flush (ring.head - 2) = some { ring with values := values' } ∧
      values'.length = ring.values.length ∧
      ({ ring with values := values' } : ValueRing V).slots =
        flushSlots (decide (ring.head ≤ 1)) ring.slots := by
  have hlen : ring.values.length = P.length + Q.length + 3 := by simp [hv]; omega
  have hsl : ring.slots = u :: ((P ++ [w]).reverse ++ (y :: Q).reverse) := by
    rw [slots_of_split (P := P ++ [w] ++ [u]) (y := y) (Q := Q) (by simp [hv]) (by simp [hh])]
    simp
  have hl := length_clearRun (P ++ [w]).reverse
  simp only [flush, hsl, decide_eq_false (show ¬ ring.head ≤ 1 by omega), flushSlots]
  rw [if_neg (by omega), forRange_flushSlot (A := []) (B := P ++ [w]) (C := u :: y :: Q)
    (by simp [hv]) (k := 0) (by simp) (by simp [hh])]
  cases hc : clearRun (P ++ [w]).reverse with
  | exit l =>
    simp only [hc, Flow.state, List.length_reverse] at hl
    refine ⟨l.reverse ++ u :: y :: Q, rfl, by simp [hv, hl]; omega, ?_⟩
    rw [slots_of_split (P := l.reverse ++ [u]) (y := y) (Q := Q) (by simp)
      (by simp [hh, hl]; omega), clearRun_append_of_exit hc]
    simp
  | next l =>
    simp only [hc, Flow.state, List.length_reverse] at hl
    simp only [Flow.map_next, List.nil_append, Option.bind_eq_bind, Option.some_bind]
    rw [forRange_flushSlot (A := l.reverse ++ [u]) (B := y :: Q) (C := []) (by simp)
      (j := ring.values.length - 1) (k := ring.head) (by simp [hh, hl]; omega)
      (by simp [hlen, hl]; omega), clearRun_append_of_next hc]
    refine ⟨l.reverse ++ [u] ++ (clearRun (y :: Q).reverse).state.reverse, ?_, ?_, ?_⟩
    · cases clearRun (y :: Q).reverse <;> simp [Flow.state]
    · simp [length_clearRun, hv, hl]; omega
    · rw [slots_of_append (A := l.reverse ++ [u]) rfl (by simp [hh, hl]; omega)]
      cases clearRun (y :: Q).reverse <;> simp [Flow.state]

private theorem flush_of_one {ring : ValueRing V} {Q : List (TimedValue V)} {u y : TimedValue V}
    (hv : ring.values = u :: y :: Q) (hh : ring.head = 1) :
    ∃ values', ring.flush (ring.head - 2) = some { ring with values := values' } ∧
      values'.length = ring.values.length ∧
      ({ ring with values := values' } : ValueRing V).slots =
        flushSlots (decide (ring.head ≤ 1)) ring.slots := by
  have hsl : ring.slots = u :: (y :: Q).reverse := by
    rw [slots_of_split (P := [u]) (y := y) (Q := Q) (by simp [hv]) (by simp [hh])]; simp
  have hl := length_clearRun (y :: Q).reverse
  simp only [flush, hsl, decide_eq_true (show ring.head ≤ 1 by omega), flushSlots, if_true]
  rw [if_pos (by omega), forRange_flushSlot (A := []) (B := u :: y :: Q) (C := [])
    (by simp [hv]) (k := 0) (by simp) (by simp [hh, hv]), List.reverse_cons]
  cases hc : clearRun (y :: Q).reverse with
  | exit l =>
    simp only [hc, Flow.state, List.length_reverse] at hl
    rw [clearRun_append_of_exit hc]
    refine ⟨u :: l.reverse, by simp, by simp [hv, hl], ?_⟩
    rw [slots_of_append (A := [u]) (B := l.reverse) rfl (by simp [hh])]
    simp
  | next l =>
    simp only [hc, Flow.state, List.length_reverse] at hl
    rw [clearRun_append_of_next hc, clearRun_singleton]
    cases hu : u.val with
    | none =>
      refine ⟨u :: l.reverse, by simp, by simp [hv, hl], ?_⟩
      rw [slots_of_append (A := [u]) (B := l.reverse) rfl (by simp [hh])]
      simp [clear_of_val_none hu]
    | some _ =>
      simp only [Flow.map_next, List.nil_append, List.append_nil, List.reverse_append,
        List.reverse_singleton, List.singleton_append, Option.bind_eq_bind, Option.some_bind]
      rw [forRange_flushSlot (A := [{ u with val := none }]) (B := l.reverse) (C := []) (by simp)
        (j := ring.values.length - 1) (k := ring.head) (by simp [hh])
        (by simp [hv, hl]; omega), List.reverse_reverse,
        clearRun_clearRun hc (by simp)]
      refine ⟨{ u with val := none } :: l.reverse, by simp [Flow.state], by simp [hv, hl], ?_⟩
      rw [slots_of_append (A := [{ u with val := none }]) (B := l.reverse) rfl (by simp [hh])]
      simp

private theorem flush_of_single {ring : ValueRing V} {y : TimedValue V}
    (hv : ring.values = [y]) (hh : ring.head = 0) :
    ∃ values', ring.flush (ring.head - 2) = some { ring with values := values' } ∧
      values'.length = ring.values.length ∧
      ({ ring with values := values' } : ValueRing V).slots =
        flushSlots (decide (ring.head ≤ 1)) ring.slots := by
  have hsl : ring.slots = [y] := by simp [slots, hv, hh]
  simp only [flush, hsl, decide_eq_true (show ring.head ≤ 1 by omega), flushSlots, if_true]
  rw [if_pos (by omega), forRange_flushSlot (A := []) (B := []) (C := [y])
    (by simp [hv]) (k := 0) (by simp) (by simp [hv, hh])]
  simp only [List.reverse_nil, clearRun, Flow.map_next, List.nil_append, Option.bind_eq_bind,
    Option.some_bind]
  rw [forRange_flushSlot (A := []) (B := [y]) (C := []) (by simp) (j := ring.values.length - 1)
    (k := ring.head) (by simp [hh]) (by simp [hv]), List.reverse_singleton, clearRun_singleton]
  cases hu : y.val with
  | none =>
    exact ⟨[y], by simp [hv, Flow.state], by simp [hv], by simp [slots, hh, clear_of_val_none hu]⟩
  | some _ =>
    exact ⟨[{ y with val := none }], by simp [Flow.state], by simp [hv], by simp [slots, hh]⟩

private theorem flush_of_zero {ring : ValueRing V} {Q : List (TimedValue V)} {u y : TimedValue V}
    (hv : ring.values = y :: Q ++ [u]) (hh : ring.head = 0) :
    ∃ values', ring.flush (ring.head - 2) = some { ring with values := values' } ∧
      values'.length = ring.values.length ∧
      ({ ring with values := values' } : ValueRing V).slots =
        flushSlots (decide (ring.head ≤ 1)) ring.slots := by
  have hsl : ring.slots = u :: (y :: Q).reverse := by
    rw [slots_of_append (A := []) (B := y :: Q ++ [u]) (by simp [hv]) (by simp [hh])]; simp
  have hl := length_clearRun (y :: Q).reverse
  simp only [flush, hsl, decide_eq_true (show ring.head ≤ 1 by omega), flushSlots, if_true]
  rw [if_pos (by omega), forRange_flushSlot (A := []) (B := y :: Q) (C := [u])
    (by simp [hv]) (k := 0) (by simp) (by simp [hh, hv]; omega)]
  cases hc : clearRun (y :: Q).reverse with
  | exit l =>
    simp only [hc, Flow.state, List.length_reverse] at hl
    refine ⟨l.reverse ++ [u], by simp, by simp [hv, hl], ?_⟩
    rw [slots_of_append (A := []) (B := l.reverse ++ [u]) rfl (by simp [hh])]
    simp
  | next l =>
    simp only [hc, Flow.state, List.length_reverse] at hl
    simp only [Flow.map_next, List.nil_append, Option.bind_eq_bind, Option.some_bind]
    rw [forRange_flushSlot (A := []) (B := l.reverse ++ [u]) (C := []) (by simp)
      (j := ring.values.length - 1) (k := ring.head) (by simp [hh])
      (by simp [hv, hl]), List.reverse_append, List.reverse_singleton, List.reverse_reverse,
      List.singleton_append]
    cases hu : u.val with
    | none =>
      refine ⟨l.reverse ++ [u], by simp [clearRun, hu, Flow.state], by simp [hv, hl], ?_⟩
      rw [slots_of_append (A := []) (B := l.reverse ++ [u]) rfl (by simp [hh])]
      simp [clear_of_val_none hu]
    | some _ =>
      refine ⟨l.reverse ++ [{ u with val := none }], ?_, by simp [hv, hl], ?_⟩
      · simp [clearRun, hu, clearRun_clearRun hc (by simp), Flow.state]
      · rw [slots_of_append (A := []) (B := l.reverse ++ [{ u with val := none }]) rfl
          (by simp [hh])]
        simp

theorem flush_of_split {ring : ValueRing V} {P Q : List (TimedValue V)} {y : TimedValue V}
    (hv : ring.values = P ++ y :: Q) (hh : ring.head = P.length) :
    ∃ values', ring.flush (ring.head - 2) = some { ring with values := values' } ∧
      values'.length = ring.values.length ∧
      ({ ring with values := values' } : ValueRing V).slots =
        flushSlots (decide (ring.head ≤ 1)) ring.slots := by
  rcases P.eq_nil_or_concat with rfl | ⟨P, u, rfl⟩
  · rcases Q.eq_nil_or_concat with rfl | ⟨Q, u, rfl⟩
    · exact flush_of_single (by simpa using hv) (by simpa using hh)
    · exact flush_of_zero (by simpa using hv) (by simpa using hh)
  · rcases P.eq_nil_or_concat with rfl | ⟨P, w, rfl⟩
    · exact flush_of_one (by simpa using hv) (by simpa using hh)
    · exact flush_of_two_le (by simpa using hv) (by simpa using hh)

/-! ### Spec lemmas on well-formed rings -/

namespace WF

variable {ring : ValueRing V} (hw : ring.WF)
include hw

theorem slots_ne_nil : ring.slots ≠ [] := by
  obtain ⟨P, y, Q, hv, hh⟩ := hw.exists_split
  simp [slots_of_split hv hh]

theorem getHead_eq : ring.getHead = ring.slots.head? := by
  obtain ⟨P, y, Q, hv, hh⟩ := hw.exists_split
  exact getHead_of_split hv hh

theorem get_eq (before : Int) :
    ring.get before = some (scanSlots before TimedValue.zero ring.slots).state := by
  obtain ⟨P, y, Q, hv, hh⟩ := hw.exists_split
  exact get_of_split hv hh before

/-- `FlushHead` commits the aggregated sample in front of the slots and drops the oldest one;
the ring stays well formed. -/
theorem flushHead_spec (now : Int) :
    ∃ r', ring.flushHead now = some r' ∧ r'.WF ∧ r'.values.length = ring.values.length ∧
      r'.slots = ⟨now, ring.aggregator⟩ :: ring.slots.dropLast ∧
      r'.head = (ring.head + 1) % ring.values.length ∧ r'.aggregator = none ∧
      r'.interval = ring.interval ∧ r'.previousDiff = ring.previousDiff := by
  obtain ⟨P, y, Q, hv, hh⟩ := hw.exists_split
  have hlen : (P ++ ⟨now, ring.aggregator⟩ :: Q).length = P.length + Q.length + 1 := by
    simp; omega
  refine ⟨_, flushHead_of_split hv hh now,
    ⟨by show 0 < (P ++ _ :: Q).length; omega, Int.natCast_nonneg _, ?_⟩,
    by simp [hv], ?_, ?_, rfl, rfl, rfl⟩
  · rw [hlen]; exact Int.ofNat_lt.2 (Nat.mod_lt _ (by omega))
  · rw [slots_commit rfl rfl, slots_of_split hv hh]; simp
  · rw [hh, hv]; push_cast; simp [Int.add_assoc]

/-- `flush (head - 2)` changes only the slice, keeps the ring well formed, and leaves the slots
`flushSlots` describes. -/
theorem flush_spec :
    ∃ values', ring.flush (ring.head - 2) = some { ring with values := values' } ∧
      ({ ring with values := values' } : ValueRing V).WF ∧ values'.length = ring.values.length ∧
      ({ ring with values := values' } : ValueRing V).slots =
        flushSlots (decide (ring.head ≤ 1)) ring.slots := by
  obtain ⟨P, y, Q, hv, hh⟩ := hw.exists_split
  obtain ⟨values', h1, h2, h3⟩ := flush_of_split hv hh
  exact ⟨values', h1, ⟨by simp [h2, hw.length_pos], hw.head_nonneg, by simp [h2, hw.head_lt]⟩,
    h2, h3⟩

end WF

variable [LogbackValue V]

/-- The rate `getDiffInterval` computes, read off the slots newest first. -/
def slotsRate (before : Int) : List (TimedValue V) → ℚ
  | [] => 0
  | head :: rest => match head.val with
    | none => 0
    | some headVal =>
      let previous := (scanSlots (head.time - before) TimedValue.zero (head :: rest)).state
      match previous.val with
      | none => 0
      | some previousVal =>
        if head.time - previous.time = 0 then 0
        else LogbackValue.diffValue headVal previousVal (head.time - previous.time)

theorem WF.getDiffInterval_eq {ring : ValueRing V} (hw : ring.WF) (before : Int) :
    ring.getDiffInterval before = some (slotsRate before ring.slots) := by
  obtain ⟨s0, rest, hs⟩ := List.exists_cons_of_ne_nil hw.slots_ne_nil
  simp only [getDiffInterval, hw.getHead_eq, hs, List.head?_cons, Option.bind_eq_bind,
    Option.some_bind, slotsRate]
  cases s0.val with
  | none => rfl
  | some headVal => rw [hw.get_eq, hs]; rfl

end ValueRing

end BitflowCollector
