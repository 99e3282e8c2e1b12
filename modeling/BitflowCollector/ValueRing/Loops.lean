import BitflowCollector.ValueRing.Basic

/-!
# The loops of `get` and `flush`

`get` and `flush` each run two `for i := hi; i >= lo; i--` loops over the slice. On indices
inside the slice both loops are folds over the slots they visit, in the order they visit them:

* `walkRing` is `scanSlot` on the slot at `i`, and a loop of it over a block `B` of the slice is
  `scanSlots` over `B.reverse` (`forRange_walkRing`);
* `flushSlot` empties the slot at `i` unless it is already empty, and a loop of it over a block
  `B` empties the slots of `B.reverse` from the front up to the first empty one, which is
  `clearRun B.reverse` (`forRange_flushSlot`).

`Flow.andThen` runs a second loop after a first one that did not return, and `clearRun` runs
over a concatenation block by block (`clearRun_append_of_exit`, `clearRun_append_of_next`).

A loop is also a run of its body over the list of indices it visits (`forIndices`,
`forRange_eq_forIndices`); over a concatenation of index lists, the run over the second list
starts only if the run over the first did not return (`forIndices_append`).

## Main definitions

* `BitflowCollector.scanSlot`, `BitflowCollector.scanSlots`: `get`'s scan over a list of slots.
* `BitflowCollector.clearRun`: `flush`'s loops over a list of slots.
* `BitflowCollector.forIndices`, `BitflowCollector.forRangeIndices`: a loop over a list of
  indices, and the indices of `for i := hi; i >= lo; i--`.

## Main results

* `BitflowCollector.ValueRing.forRange_walkRing`, `BitflowCollector.ValueRing.forRange_flushSlot`.
* `BitflowCollector.clearRun_clearRun`: a run that emptied a whole list stops at once on it.
-/

namespace BitflowCollector

variable {α σ τ : Type}

/-! ### Slices -/

@[simp] theorem sliceGet_natCast (xs : List α) (i : Nat) : sliceGet xs i = xs[i]? := by
  simp only [sliceGet, Int.natCast_nonneg, if_true, Int.toNat_ofNat]

theorem sliceGet_of_eq {xs : List α} {i : Int} {n : Nat} (h : i = n) : sliceGet xs i = xs[n]? := by
  rw [h, sliceGet_natCast]

theorem sliceSet_natCast {xs : List α} {i : Nat} (h : i < xs.length) (x : α) :
    sliceSet xs i x = some (xs.set i x) := by
  simp only [sliceSet, Int.natCast_nonneg, Int.ofNat_lt.2 h, and_self, if_true, Int.toNat_ofNat]

private theorem getElem?_middle (A B C : List α) (x : α) :
    (A ++ B ++ x :: C)[A.length + B.length]? = some x := by
  rw [← List.length_append, List.getElem?_append_right (Nat.le_refl _)]; simp

private theorem set_middle (A B C : List α) (x y : α) :
    (A ++ B ++ x :: C).set (A.length + B.length) y = A ++ B ++ y :: C := by
  rw [← List.length_append, List.set_append_right _ _ (Nat.le_refl _), Nat.sub_self]; rfl

/-! ### Flows -/

/-- Apply `f` to the state a loop body left. -/
def Flow.map (f : σ → τ) : Flow σ → Flow τ
  | .next s => .next (f s)
  | .exit s => .exit (f s)

/-- Go on with `f` after a loop that ran to its end; a loop that returned stays returned. -/
def Flow.andThen : Flow σ → (σ → Flow σ) → Flow σ
  | .next s, f => f s
  | .exit s, _ => .exit s

@[simp] theorem Flow.map_next (f : σ → τ) (s : σ) : (Flow.next s).map f = .next (f s) := rfl

@[simp] theorem Flow.map_exit (f : σ → τ) (s : σ) : (Flow.exit s).map f = .exit (f s) := rfl

@[simp] theorem Flow.map_map {ρ : Type} (f : σ → τ) (g : τ → ρ) (fl : Flow σ) :
    (fl.map f).map g = fl.map (g ∘ f) := by
  cases fl <;> rfl

@[simp] theorem Flow.next_andThen (s : σ) (f : σ → Flow σ) : (Flow.next s).andThen f = f s := rfl

@[simp] theorem Flow.exit_andThen (s : σ) (f : σ → Flow σ) :
    (Flow.exit s).andThen f = .exit s := rfl

/-! ### Loops over the indices they visit -/

/-- Run a loop body at each index of a list in turn, until it returns. -/
def forIndices (body : Int → σ → Option (Flow σ)) : List Int → σ → Option (Flow σ)
  | [], s => some (.next s)
  | i :: is, s => body i s >>= fun
    | .next s' => forIndices body is s'
    | .exit s' => some (.exit s')

/-- The indices `hi, hi - 1, …, lo` that `for i := hi; i >= lo; i--` visits. -/
def forRangeIndices (hi lo : Int) : List Int :=
  (List.range (hi - lo + 1).toNat).map fun (k : Nat) => hi - k

theorem forDown_eq_forIndices (body : Int → σ → Option (Flow σ)) (n : Nat) (i : Int) (s : σ) :
    forDown body n i s = forIndices body ((List.range n).map fun (k : Nat) => i - k) s := by
  induction n generalizing i s with
  | zero => rfl
  | succ n ih =>
    have hmap : (List.range n).map (fun k => i - ((k + 1 : Nat) : Int)) =
        (List.range n).map fun (k : Nat) => i - 1 - k :=
      List.map_congr_left fun k _ => by omega
    simp only [forDown, forIndices, List.range_succ_eq_map, List.map_cons, List.map_map,
      Function.comp_def, Nat.succ_eq_add_one, hmap, Nat.cast_zero, Int.sub_zero]
    cases body i s with
    | none => rfl
    | some fl =>
      cases fl with
      | next s' => exact ih (i - 1) s'
      | exit s' => rfl

theorem forRange_eq_forIndices (body : Int → σ → Option (Flow σ)) (hi lo : Int) (s : σ) :
    forRange body hi lo s = forIndices body (forRangeIndices hi lo) s :=
  forDown_eq_forIndices body _ hi s

/-- A loop over `is ++ js` runs over `js` only after a run over `is` that did not return. -/
theorem forIndices_append (body : Int → σ → Option (Flow σ)) (is js : List Int) (s : σ) :
    forIndices body (is ++ js) s = forIndices body is s >>= fun
      | .next s' => forIndices body js s'
      | .exit s' => some (.exit s') := by
  induction is generalizing s with
  | nil => rfl
  | cons i is ih =>
    simp only [List.cons_append, forIndices]
    cases body i s with
    | none => rfl
    | some fl =>
      cases fl with
      | next s' => exact ih s'
      | exit s' => rfl

theorem mem_forRangeIndices {hi lo i : Int} : i ∈ forRangeIndices hi lo ↔ lo ≤ i ∧ i ≤ hi := by
  simp only [forRangeIndices, List.mem_map, List.mem_range]
  constructor
  · rintro ⟨k, hk, rfl⟩
    omega
  · intro h
    exact ⟨(hi - i).toNat, by omega, by omega⟩

theorem nodup_forRangeIndices (hi lo : Int) : (forRangeIndices hi lo).Nodup :=
  (List.nodup_range _).map fun a b (h : hi - (a : Int) = hi - b) => by omega

/-! ### The scan of `get` -/

variable {V : Type}

/-- One slot of `get`'s scan: the body of `walkRing` once the slot is read. -/
def scanSlot (before : Int) (result v : TimedValue V) : Flow (TimedValue V) :=
  match v.val with
  | none => .exit result
  | some _ => if v.time < before then .exit v else .next v

/-- `get`'s scan over a list of slots, starting from `result`. -/
def scanSlots (before : Int) : TimedValue V → List (TimedValue V) → Flow (TimedValue V)
  | result, [] => .next result
  | result, v :: vs => (scanSlot before result v).andThen fun r => scanSlots before r vs

theorem scanSlots_append (before : Int) (result : TimedValue V) (l₁ l₂ : List (TimedValue V)) :
    scanSlots before result (l₁ ++ l₂) =
      (scanSlots before result l₁).andThen fun r => scanSlots before r l₂ := by
  induction l₁ generalizing result with
  | nil => rfl
  | cons v vs ih =>
    simp only [List.cons_append, scanSlots]
    cases scanSlot before result v <;> simp [ih]

/-! ### The runs of `flush` -/

/-- Empty the slots of a list from the front, up to the first empty one: `flush`'s loops, read
in the order they visit the slots. -/
def clearRun : List (TimedValue V) → Flow (List (TimedValue V))
  | [] => .next []
  | v :: vs => match v.val with
    | none => .exit (v :: vs)
    | some _ => (clearRun vs).map ({ v with val := none } :: ·)

theorem clear_of_val_none {v : TimedValue V} (h : v.val = none) : { v with val := none } = v := by
  cases v; simp_all

theorem clearRun_singleton (v : TimedValue V) :
    clearRun [v] = match v.val with
      | none => .exit [v]
      | some _ => .next [{ v with val := none }] := by
  cases hv : v.val <;> simp [clearRun, hv]

theorem length_clearRun (l : List (TimedValue V)) : (clearRun l).state.length = l.length := by
  induction l with
  | nil => rfl
  | cons v vs ih =>
    cases hv : v.val <;> cases hvs : clearRun vs <;> simp_all [clearRun, Flow.state]

/-- A run empties the whole list exactly when every slot of it is full. -/
theorem exists_clearRun_eq_next_iff (l : List (TimedValue V)) :
    (∃ l', clearRun l = .next l') ↔ ∀ s ∈ l, s.val.isSome := by
  induction l with
  | nil => simp [clearRun]
  | cons v vs ih =>
    cases hv : v.val with
    | none => simp [clearRun, hv]
    | some _ => cases h : clearRun vs <;> simp_all [clearRun]

theorem clearRun_append_of_exit {l₁ l : List (TimedValue V)} (h : clearRun l₁ = .exit l)
    (l₂ : List (TimedValue V)) : clearRun (l₁ ++ l₂) = .exit (l ++ l₂) := by
  induction l₁ generalizing l with
  | nil => cases h
  | cons v vs ih =>
    cases hv : v.val with
    | none =>
      simp only [List.cons_append, clearRun, hv, Flow.exit.injEq] at h ⊢
      simp [← h]
    | some _ =>
      simp only [List.cons_append, clearRun, hv] at h ⊢
      cases hvs : clearRun vs with
      | next m => simp [hvs] at h
      | exit m =>
        simp only [hvs, Flow.map_exit, Flow.exit.injEq] at h
        simp [ih hvs, ← h]

theorem clearRun_append_of_next {l₁ l : List (TimedValue V)} (h : clearRun l₁ = .next l)
    (l₂ : List (TimedValue V)) : clearRun (l₁ ++ l₂) = (clearRun l₂).map (l ++ ·) := by
  induction l₁ generalizing l with
  | nil => cases h; simp only [List.nil_append]; cases clearRun l₂ <;> rfl
  | cons v vs ih =>
    cases hv : v.val with
    | none => simp [clearRun, hv] at h
    | some _ =>
      simp only [List.cons_append, clearRun, hv] at h ⊢
      cases hvs : clearRun vs with
      | exit m => simp [hvs] at h
      | next m =>
        simp only [hvs, Flow.map_next, Flow.next.injEq, List.append_eq] at h ⊢
        rw [ih hvs, Flow.map_map, ← h]
        rfl

/-- A run that emptied a whole non-empty list stops at once when it meets that list again. -/
theorem clearRun_clearRun {l l' : List (TimedValue V)} (h : clearRun l = .next l') (hl : l ≠ []) :
    clearRun l' = .exit l' := by
  obtain ⟨v, vs, rfl⟩ := List.exists_cons_of_ne_nil hl
  cases hv : v.val with
  | none => simp [clearRun, hv] at h
  | some _ =>
    simp only [clearRun, hv] at h
    cases hvs : clearRun vs with
    | exit m => simp [hvs] at h
    | next m =>
      simp only [hvs, Flow.map_next, Flow.next.injEq] at h
      simp [← h, clearRun]

/-! ### The loops over a block of the slice -/

namespace ValueRing

theorem walkRing_eq (values : List (TimedValue V)) (before i : Int) (result : TimedValue V) :
    walkRing values before i result = (sliceGet values i).map (scanSlot before result) := rfl

theorem forDown_walkRing (before : Int) {values A B C : List (TimedValue V)}
    (hv : values = A ++ B ++ C) {i : Int} (hi : i + 1 = A.length + B.length)
    (result : TimedValue V) :
    forDown (walkRing values before) B.length i result =
      some (scanSlots before result B.reverse) := by
  subst hv
  induction B using List.reverseRecOn generalizing C result i with
  | nil => rfl
  | append_singleton B x ih =>
    simp only [List.length_append, List.length_singleton] at hi
    obtain rfl : i = ((A.length + B.length : Nat) : Int) := by omega
    have hC : A ++ (B ++ [x]) ++ C = A ++ B ++ (x :: C) := by simp
    simp only [hC, List.length_append, List.length_singleton, forDown, List.reverse_append,
      List.reverse_singleton, List.singleton_append, scanSlots, walkRing_eq, sliceGet_natCast,
      getElem?_middle, Option.map_some', Option.some_bind]
    cases scanSlot before result x with
    | next r => exact ih (C := x :: C) (by omega) r
    | exit r => rfl

theorem forDown_flushSlot {values A B C : List (TimedValue V)} (hv : values = A ++ B ++ C)
    {i : Int} (hi : i + 1 = A.length + B.length) :
    forDown flushSlot B.length i values =
      some ((clearRun B.reverse).map fun l => A ++ l.reverse ++ C) := by
  subst hv
  induction B using List.reverseRecOn generalizing C i with
  | nil => simp [forDown, clearRun]
  | append_singleton B x ih =>
    simp only [List.length_append, List.length_singleton] at hi
    obtain rfl : i = ((A.length + B.length : Nat) : Int) := by omega
    have hC : A ++ (B ++ [x]) ++ C = A ++ B ++ (x :: C) := by simp
    simp only [hC, List.length_append, List.length_singleton, forDown, flushSlot,
      sliceGet_natCast, getElem?_middle, Option.bind_eq_bind, Option.some_bind,
      List.reverse_append, List.reverse_singleton, List.singleton_append, clearRun]
    cases hxv : x.val with
    | none => simp [hxv]
    | some _ =>
      have hlt : A.length + B.length < (A ++ B ++ x :: C).length := by simp
      simp only [hxv, sliceSet_natCast hlt, set_middle, Option.map_some', Option.some_bind,
        Flow.map_map]
      rw [ih (C := { x with val := none } :: C) (by push_cast; omega)]
      congr 2; funext l; simp

theorem forRange_walkRing (before : Int) {values A B C : List (TimedValue V)}
    (hv : values = A ++ B ++ C) {j k : Int} (hk : k = A.length)
    (hj : j + 1 = A.length + B.length) (result : TimedValue V) :
    forRange (walkRing values before) j k result = some (scanSlots before result B.reverse) := by
  rw [forRange, show (j - k + 1).toNat = B.length by omega, forDown_walkRing before hv hj]

theorem forRange_flushSlot {values A B C : List (TimedValue V)} (hv : values = A ++ B ++ C)
    {j k : Int} (hk : k = A.length) (hj : j + 1 = A.length + B.length) :
    forRange flushSlot j k values =
      some ((clearRun B.reverse).map fun l => A ++ l.reverse ++ C) := by
  rw [forRange, show (j - k + 1).toNat = B.length by omega, forDown_flushSlot hv hj]

end ValueRing

end BitflowCollector
