import BitflowCollector.ValueRing.Run

/-!
# Overflow recovery

`GetDiff` takes a negative rate for an overflown counter: it answers the previous rate instead
and flushes the history (`// Only keep the latest sample`). This file follows `previousDiff`
along runs and what the flush leaves behind.

* Every call keeps `previousDiff` at the last answer of a `GetDiff`, and every answer is its rate
  when that is not negative and the previous answer otherwise (`step_previousDiff`). From a ring
  `NewValueRing` builds, every answer is therefore non-negative
  (`newValueRing_run_answersFollow`).
* The flush keeps the newest sample only when the head is at least `2` or the run of full slots
  stops before the oldest slot. Otherwise its loops go on into the newest slot and empty it, and
  `GetHead` answers `nil` (`WF.getHeadValue_after_flush`); a counter kept by `Increment` then
  starts again from the next delta.
* The flush empties the slot after the newest one, so a second `GetDiff` right after a negative
  rate answers `0` (`WF.getDiff_twice`).

## Main definitions

* `BitflowCollector.ValueRing.Out.answer`, `BitflowCollector.ValueRing.Out.Follows`.
* `BitflowCollector.ValueRing.AnswersFollow`.

## Main results

* `BitflowCollector.ValueRing.step_previousDiff`, `BitflowCollector.ValueRing.run_previousDiff`.
* `BitflowCollector.ValueRing.newValueRing_run_answersFollow`.
* `BitflowCollector.ValueRing.WF.getHeadValue_after_flush`.
* `BitflowCollector.ValueRing.WF.getDiff_twice`.
-/

namespace BitflowCollector

namespace ValueRing

variable {V : Type} [LogbackValue V]

/-! ### `previousDiff` along a run -/

/-- The last answer of a `GetDiff`, after an output: the answer of a `GetDiff`, else `last`. -/
def Out.answer (last : ℚ) : Out V → ℚ
  | .diff _ val => val
  | _ => last

/-- An output follows `last` when, for a `GetDiff`, it answers its rate if that is not
negative and `last` otherwise. -/
def Out.Follows (last : ℚ) : Out V → Prop
  | .diff fresh val => val = if 0 ≤ fresh then fresh else last
  | _ => True

/-- Every output of a run follows the answer of the `GetDiff` before it, `last` at the start. -/
def AnswersFollow : ℚ → List (Out V) → Prop
  | _, [] => True
  | last, out :: outs => out.Follows last ∧ AnswersFollow (out.answer last) outs

omit [LogbackValue V] in
theorem flushHead_previousDiff {ring ring' : ValueRing V} {now : Int}
    (h : ring.flushHead now = some ring') : ring'.previousDiff = ring.previousDiff := by
  obtain ⟨values, -, rfl⟩ := Option.map_eq_some'.1 h
  rfl

omit [LogbackValue V] in
theorem flush_previousDiff {ring ring' : ValueRing V} {start : Int}
    (h : ring.flush start = some ring') : ring'.previousDiff = ring.previousDiff := by
  simp only [flush, Option.bind_eq_bind, Option.bind_eq_some] at h
  obtain ⟨fl, -, h⟩ := h
  cases fl with
  | exit values => cases h; rfl
  | next values =>
    obtain ⟨f, -, rfl⟩ := Option.map_eq_some'.1 h
    rfl

/-- A call records the answer of a `GetDiff` in `previousDiff`, and that answer is its rate when
it is not negative and the previous answer otherwise; other calls keep `previousDiff`. -/
theorem step_previousDiff {ring ring' : ValueRing V} {op : Op V} {out : Out V}
    (h : ring.step op = some (ring', out)) :
    out.Follows ring.previousDiff ∧ ring'.previousDiff = out.answer ring.previousDiff := by
  cases op with
  | addToHead val => cases h; exact ⟨trivial, rfl⟩
  | flushHead now =>
    obtain ⟨r, hr, ⟨⟩⟩ := Option.map_eq_some'.1 h
    exact ⟨trivial, flushHead_previousDiff hr⟩
  | add now val =>
    obtain ⟨r, hr, ⟨⟩⟩ := Option.map_eq_some'.1 h
    exact ⟨trivial, (flushHead_previousDiff hr).trans rfl⟩
  | increment now val =>
    obtain ⟨r, hr, ⟨⟩⟩ := Option.map_eq_some'.1 h
    simp only [increment, add, Option.bind_eq_bind, Option.bind_eq_some] at hr
    obtain ⟨cur, -, hr⟩ := hr
    exact ⟨trivial, (flushHead_previousDiff hr).trans rfl⟩
  | getHead =>
    obtain ⟨v, -, ⟨⟩⟩ := Option.map_eq_some'.1 h
    exact ⟨trivial, rfl⟩
  | getDiff =>
    cases hf : ring.getDiffInterval ring.interval with
    | none => simp [ValueRing.step, hf] at h
    | some fresh =>
      simp only [ValueRing.step, getDiff, hf, Option.bind_eq_bind, Option.some_bind] at h
      split_ifs at h with hneg
      · obtain ⟨r', hr', ⟨⟩⟩ := Option.map_eq_some'.1 h
        obtain ⟨r'', hr'', ⟨⟩⟩ := Option.map_eq_some'.1 hr'
        exact ⟨by simp [Out.Follows, not_le.2 hneg], flush_previousDiff hr''⟩
      · cases h
        exact ⟨by simp [Out.Follows, not_lt.1 hneg], rfl⟩

/-- Along any run, `previousDiff` ends at the last answer of a `GetDiff` and every answer
follows the one before it. -/
theorem run_previousDiff (ring : ValueRing V) (ops : List (Op V)) :
    AnswersFollow ring.previousDiff (ring.run ops).1 ∧
      ∀ ring', (ring.run ops).2 = some ring' →
        ring'.previousDiff = (ring.run ops).1.foldl (fun last out => out.answer last)
          ring.previousDiff := by
  induction ops generalizing ring with
  | nil => exact ⟨trivial, fun r h => by cases h; rfl⟩
  | cons op ops ih =>
    cases hs : ring.step op with
    | none => simp [run, hs, AnswersFollow]
    | some p =>
      obtain ⟨r, out⟩ := p
      obtain ⟨hf, hp⟩ := step_previousDiff hs
      rw [run_cons_of_step hs]
      refine ⟨⟨hf, hp ▸ (ih r).1⟩, fun r' h => ?_⟩
      rw [List.foldl_cons, ← hp]
      exact (ih r).2 r' h

omit [LogbackValue V] in
theorem Out.Follows.answer_nonneg {last : ℚ} {out : Out V} (h : out.Follows last)
    (hlast : 0 ≤ last) : 0 ≤ out.answer last := by
  cases out with
  | diff f v =>
    have hv : v = if 0 ≤ f then f else last := h
    show 0 ≤ v
    rw [hv]; split_ifs <;> assumption
  | _ => exact hlast

omit [LogbackValue V] in
/-- Answers that follow a non-negative start are non-negative, and so is the last one. -/
theorem AnswersFollow.nonneg {last : ℚ} {outs : List (Out V)} (h : AnswersFollow last outs)
    (hlast : 0 ≤ last) :
    (∀ fresh val, Out.diff fresh val ∈ outs → 0 ≤ val) ∧
      0 ≤ outs.foldl (fun last out => out.answer last) last := by
  induction outs generalizing last with
  | nil => exact ⟨fun _ _ hm => (List.not_mem_nil _ hm).elim, hlast⟩
  | cons out outs ih =>
    have hnext := h.1.answer_nonneg hlast
    refine ⟨fun f v hm => ?_, (ih h.2 hnext).2⟩
    rcases List.mem_cons.1 hm with rfl | hm
    · exact hnext
    · exact (ih h.2 hnext).1 f v hm

/-- From a ring `NewValueRing` builds, every `GetDiff` of a run answers its rate when that is not
negative and the previous answer, `0` for the first, otherwise; every answer is non-negative,
and `previousDiff` is the last answer. With a positive length the run completes, so every one of
its `GetDiff` calls returns. -/
theorem newValueRing_run_answersFollow (f : ValueRingFactory) (ring₀ : ValueRing V)
    (h₀ : f.newValueRing = some ring₀) (ops : List (Op V)) :
    AnswersFollow 0 (ring₀.run ops).1 ∧
      (∀ fresh val, Out.diff fresh val ∈ (ring₀.run ops).1 → 0 ≤ val) ∧
      (1 ≤ f.length → ∃ ring, (ring₀.run ops).2 = some ring) ∧
      ∀ ring, (ring₀.run ops).2 = some ring →
        ring.previousDiff = (ring₀.run ops).1.foldl (fun last out => out.answer last) 0 ∧
        0 ≤ ring.previousDiff := by
  have hp := newValueRing_previousDiff h₀
  obtain ⟨hf, hl⟩ := run_previousDiff ring₀ ops
  rw [hp] at hf hl
  obtain ⟨hv, hlast⟩ := hf.nonneg le_rfl
  refine ⟨hf, hv, fun hC => ?_, fun ring h => ⟨hl ring h, hl ring h ▸ hlast⟩⟩
  obtain ⟨ring₁, h₁, hw₁, -⟩ := newValueRing_wf (V := V) hC
  obtain rfl : ring₁ = ring₀ := Option.some.inj (h₁.symm.trans h₀)
  obtain ⟨ring, h, -⟩ := hw₁.run ops
  exact ⟨ring, h⟩

theorem run_answersFollow_three_slots :
    AnswersFollow 0
        ((⟨1, List.replicate 3 TimedValue.zero, 0, none, 0⟩ : ValueRing StoredValue).run
          [.add 0 ⟨10⟩, .getDiff, .add 1 ⟨5⟩, .getDiff]).1 ∧
      (∀ fresh val, Out.diff fresh val ∈
          ((⟨1, List.replicate 3 TimedValue.zero, 0, none, 0⟩ : ValueRing StoredValue).run
            [.add 0 ⟨10⟩, .getDiff, .add 1 ⟨5⟩, .getDiff]).1 → 0 ≤ val) ∧
      (∃ ring, ((⟨1, List.replicate 3 TimedValue.zero, 0, none, 0⟩ : ValueRing StoredValue).run
          [.add 0 ⟨10⟩, .getDiff, .add 1 ⟨5⟩, .getDiff]).2 = some ring) ∧
      ∀ ring, ((⟨1, List.replicate 3 TimedValue.zero, 0, none, 0⟩ : ValueRing StoredValue).run
          [.add 0 ⟨10⟩, .getDiff, .add 1 ⟨5⟩, .getDiff]).2 = some ring →
        ring.previousDiff =
          ((⟨1, List.replicate 3 TimedValue.zero, 0, none, 0⟩ : ValueRing StoredValue).run
            [.add 0 ⟨10⟩, .getDiff, .add 1 ⟨5⟩, .getDiff]).1.foldl
              (fun last out => out.answer last) 0 ∧
        0 ≤ ring.previousDiff :=
  have h := newValueRing_run_answersFollow ⟨3, 1⟩ _ rfl
    [.add 0 (⟨10⟩ : StoredValue), .getDiff, .add 1 ⟨5⟩, .getDiff]
  ⟨h.1, h.2.1, h.2.2.1 (by decide), h.2.2.2⟩

/-! ### What the flush leaves -/

omit [LogbackValue V] in
/-- The newest slot after a flush: emptied when the head is low and the run of full slots
reaches the oldest slot, kept otherwise. -/
private theorem head?_flushSlots (lowHead : Bool) (s0 : TimedValue V) (tail : List (TimedValue V)) :
    (flushSlots lowHead (s0 :: tail)).head? =
      some (if lowHead ∧ ∀ s ∈ tail, s.val.isSome then { s0 with val := none } else s0) := by
  cases h : clearRun tail with
  | exit l =>
    have hnot : ¬∀ s ∈ tail, s.val.isSome := fun hall => by
      obtain ⟨l', h'⟩ := (exists_clearRun_eq_next_iff tail).2 hall
      rw [h] at h'; cases h'
    simp [flushSlots, h, hnot]
  | next l =>
    have hall := (exists_clearRun_eq_next_iff tail).1 ⟨l, h⟩
    cases lowHead
    · simp [flushSlots, h]
    · simp [flushSlots, h, if_pos hall]

/-- On a negative rate, `GetDiff` keeps the head, and `GetHead` answers afterwards what it
answered before, unless the head is `0` or `1` and every older slot is full: the flush then runs
on into the newest slot, and `GetHead` answers `nil`. -/
theorem WF.getHeadValue_after_flush {ring : ValueRing V} (hw : ring.WF)
    (hneg : slotsRate ring.interval ring.slots < 0) :
    ∃ ring', ring.step .getDiff =
        some (ring', .diff (slotsRate ring.interval ring.slots) ring.previousDiff) ∧
      ring'.head = ring.head ∧
      ring'.getHeadValue = if ring.head ≤ 1 ∧ ∀ s ∈ ring.slots.tail, s.val.isSome
        then some none else ring.getHeadValue := by
  obtain ⟨values', h, hw', -, hs⟩ := hw.step_getDiff_of_neg hneg
  obtain ⟨s0, rest, hsl⟩ := List.exists_cons_of_ne_nil hw.slots_ne_nil
  refine ⟨_, h, rfl, ?_⟩
  simp only [getHeadValue, hw'.getHead_eq, hw.getHead_eq, hs, hsl, head?_flushSlots,
    List.tail_cons, decide_eq_true_eq]
  split_ifs <;> rfl

unseal Rat.add Rat.sub Rat.mul Rat.inv in
theorem getHeadValue_after_flush_full_ring :
    ValueRing.WF (⟨1, [⟨0, some ⟨10⟩⟩, ⟨1, some ⟨20⟩⟩, ⟨2, some ⟨5⟩⟩], 0, none, 0⟩ :
        ValueRing StoredValue) ∧
      slotsRate 1 [⟨2, some ⟨5⟩⟩, ⟨1, some ⟨20⟩⟩, ⟨0, some (⟨10⟩ : StoredValue)⟩] < 0 ∧
      ∃ ring', ValueRing.step
          (⟨1, [⟨0, some ⟨10⟩⟩, ⟨1, some ⟨20⟩⟩, ⟨2, some ⟨5⟩⟩], 0, none, 0⟩ : ValueRing StoredValue)
          .getDiff =
            some (ring', .diff
              (slotsRate 1 [⟨2, some ⟨5⟩⟩, ⟨1, some ⟨20⟩⟩, ⟨0, some (⟨10⟩ : StoredValue)⟩]) 0) ∧
        ring'.head = 0 ∧
        ring'.getHeadValue =
          if (0 : Int) ≤ 1 ∧
            ∀ s ∈ ([⟨1, some ⟨20⟩⟩, ⟨0, some ⟨10⟩⟩] : List (TimedValue StoredValue)), s.val.isSome
          then some none else some (some ⟨5⟩) :=
  have hw : ValueRing.WF (⟨1, [⟨0, some ⟨10⟩⟩, ⟨1, some ⟨20⟩⟩, ⟨2, some ⟨5⟩⟩], 0, none, 0⟩ :
      ValueRing StoredValue) := ⟨by decide, le_refl _, by decide⟩
  have hneg : slotsRate 1 [⟨2, some ⟨5⟩⟩, ⟨1, some ⟨20⟩⟩, ⟨0, some (⟨10⟩ : StoredValue)⟩] < 0 := by
    decide
  ⟨hw, hneg, WF.getHeadValue_after_flush hw hneg⟩

unseal Rat.add Rat.sub Rat.mul Rat.inv in
/-- Three slots, a window of one second and the samples `10`, `20`, `5` one second apart: the
rate is negative, the head is `0`, and the flush empties the newest slot with the others. -/
theorem getDiff_empties_newest_three_slots :
    ((⟨3, 1000000000⟩ : ValueRingFactory).newValueRing.map fun ring : ValueRing StoredValue =>
      (ring.run [.add 0 ⟨10⟩, .add 1000000000 ⟨20⟩, .add 2000000000 ⟨5⟩, .getHead, .getDiff,
        .getHead]).1) =
      some [.done, .done, .done, .head (some ⟨5⟩), .diff (-5 / 2) 0, .head none] := by
  decide

/-- A scan that ends on the newest sample gives the rate `0`. -/
private theorem slotsRate_of_scan_newest {before : Int} {s0 : TimedValue V} {rest : List (TimedValue V)}
    (h : s0.val ≠ none → (scanSlots (s0.time - before) TimedValue.zero (s0 :: rest)).state = s0) :
    slotsRate before (s0 :: rest) = 0 := by
  cases h0 : s0.val with
  | none => simp [slotsRate, h0]
  | some v0 => simp [slotsRate, h0, h (by simp [h0])]

omit [LogbackValue V] in
/-- The scan takes the newest sample, and stops there when no sample follows it or the next
slot is empty. -/
private theorem scanSlots_newest (before : Int) {s0 : TimedValue V} {rest : List (TimedValue V)}
    (h : ∀ s1 ∈ rest.head?, s1.val = none) :
    s0.val ≠ none → (scanSlots before TimedValue.zero (s0 :: rest)).state = s0 := by
  intro h0
  obtain ⟨v0, h0⟩ := Option.ne_none_iff_exists'.1 h0
  by_cases ht : s0.time < before
  · simp [scanSlots, scanSlot, h0, ht, Flow.state]
  · cases rest with
    | nil => simp [scanSlots, scanSlot, h0, ht, Flow.state]
    | cons s1 rest => simp [scanSlots, scanSlot, h0, ht, h s1 rfl, Flow.state]

private theorem slotsRate_of_second_empty (before : Int) (s0 s1 : TimedValue V)
    (rest : List (TimedValue V)) (h1 : s1.val = none) : slotsRate before (s0 :: s1 :: rest) = 0 :=
  slotsRate_of_scan_newest (scanSlots_newest _ fun _ hs => by cases hs; exact h1)

/-- A non-zero rate needs a full slot after the newest one. -/
private theorem exists_full_second_of_slotsRate_ne_zero {before : Int} {slots : List (TimedValue V)}
    (h : slotsRate before slots ≠ 0) :
    ∃ s0 s1 rest v, slots = s0 :: s1 :: rest ∧ s1.val = some v := by
  match slots, h with
  | [], h => exact absurd rfl h
  | [_], h => exact absurd (slotsRate_of_scan_newest (scanSlots_newest _ fun _ hs => by cases hs)) h
  | s0 :: s1 :: rest, h =>
    cases h1 : s1.val with
    | none => exact absurd (slotsRate_of_second_empty before s0 s1 rest h1) h
    | some v => exact ⟨s0, s1, rest, v, rfl, h1⟩

omit [LogbackValue V] in
/-- The flush empties a full slot after the newest one. -/
private theorem flushSlots_of_second_full (lowHead : Bool) (s0 : TimedValue V) {s1 : TimedValue V}
    (rest : List (TimedValue V)) {v : V} (h1 : s1.val = some v) :
    ∃ s0' l, flushSlots lowHead (s0 :: s1 :: rest) = s0' :: { s1 with val := none } :: l := by
  simp only [flushSlots, clearRun, h1]
  cases clearRun rest <;> simp

/-- After a flush, the rate of the slots is `0`. -/
private theorem slotsRate_flushSlots (before : Int) (lowHead : Bool) {slots : List (TimedValue V)}
    (h : slotsRate before slots ≠ 0) : slotsRate before (flushSlots lowHead slots) = 0 := by
  obtain ⟨s0, s1, rest, v, rfl, h1⟩ := exists_full_second_of_slotsRate_ne_zero h
  obtain ⟨s0', l, hf⟩ := flushSlots_of_second_full lowHead s0 rest h1
  rw [hf]
  exact slotsRate_of_second_empty _ _ _ _ rfl

/-- Two `GetDiff` calls in a row on a well-formed ring (every reachable ring with a positive
length): when the first finds a non-negative rate, the second answers the same value. When the
first finds a negative rate, it answers the previous rate and flushes, and the second answers
`0`. -/
theorem WF.getDiff_twice {ring : ValueRing V} (hw : ring.WF) :
    ∃ fresh val₁ fresh₂ val₂,
      (ring.run [.getDiff, .getDiff]).1 = [.diff fresh val₁, .diff fresh₂ val₂] ∧
      (0 ≤ fresh → val₂ = val₁) ∧ (fresh < 0 → val₁ = ring.previousDiff ∧ val₂ = 0) := by
  by_cases hneg : slotsRate ring.interval ring.slots < 0
  · obtain ⟨values', h, hw', -, hs⟩ := hw.step_getDiff_of_neg hneg
    have h0 : slotsRate ring.interval ({ ring with values := values' } : ValueRing V).slots = 0 :=
      hs ▸ slotsRate_flushSlots _ _ hneg.ne
    have h' := hw'.step_getDiff_of_nonneg (le_of_eq h0.symm)
    rw [h0] at h'
    exact ⟨_, _, _, _, by rw [run_cons_of_step h, run_cons_of_step h']; rfl,
      fun h => absurd h (not_le.2 hneg), fun _ => ⟨rfl, rfl⟩⟩
  · have h := hw.step_getDiff_of_nonneg (not_lt.1 hneg)
    have hw' : ({ ring with previousDiff := slotsRate ring.interval ring.slots } :
        ValueRing V).WF := ⟨hw.length_pos, hw.head_nonneg, hw.head_lt⟩
    have h' := hw'.step_getDiff_of_nonneg (not_lt.1 hneg)
    exact ⟨_, _, _, _, by rw [run_cons_of_step h, run_cons_of_step h']; rfl, fun _ => rfl,
      fun h => absurd h hneg⟩

unseal Rat.add Rat.sub Rat.mul Rat.inv in
/-- The full ring of three slots with the samples `10`, `20`, `5` one nanosecond apart and a
window of one nanosecond: the rate is negative, so the first `GetDiff` takes the branch that
flushes. -/
theorem getDiff_twice_full_ring :
    ValueRing.WF (⟨1, [⟨0, some ⟨10⟩⟩, ⟨1, some ⟨20⟩⟩, ⟨2, some ⟨5⟩⟩], 0, none, 0⟩ :
        ValueRing StoredValue) ∧
      slotsRate (⟨1, [⟨0, some ⟨10⟩⟩, ⟨1, some ⟨20⟩⟩, ⟨2, some ⟨5⟩⟩], 0, none, 0⟩ :
        ValueRing StoredValue).interval
        (⟨1, [⟨0, some ⟨10⟩⟩, ⟨1, some ⟨20⟩⟩, ⟨2, some ⟨5⟩⟩], 0, none, 0⟩ :
          ValueRing StoredValue).slots < 0 ∧
      ∃ fresh val₁ fresh₂ val₂,
        ((⟨1, [⟨0, some ⟨10⟩⟩, ⟨1, some ⟨20⟩⟩, ⟨2, some ⟨5⟩⟩], 0, none, 0⟩ :
          ValueRing StoredValue).run [.getDiff, .getDiff]).1 =
            [.diff fresh val₁, .diff fresh₂ val₂] ∧
        (0 ≤ fresh → val₂ = val₁) ∧ (fresh < 0 → val₁ = 0 ∧ val₂ = 0) :=
  ⟨⟨by decide, le_refl _, by decide⟩, by decide,
    WF.getDiff_twice ⟨by decide, le_refl _, by decide⟩⟩

unseal Rat.add Rat.sub Rat.mul Rat.inv in
/-- Four slots, a window of one second and the samples `0`, `10`, `-5` one second apart: the two
`GetDiff` calls after the third sample answer `10` and then `0`. -/
theorem getDiff_twice_four_slots :
    ((⟨4, 1000000000⟩ : ValueRingFactory).newValueRing.map fun ring : ValueRing StoredValue =>
      (ring.run [.add 0 ⟨0⟩, .add 1000000000 ⟨10⟩, .getDiff, .add 2000000000 ⟨-5⟩, .getDiff,
        .getDiff]).1) =
      some [.done, .done, .diff 10 10, .done, .diff (-5 / 2) 10, .diff 0 0] := by
  decide

end ValueRing

end BitflowCollector
