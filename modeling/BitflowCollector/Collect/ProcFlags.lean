import Mathlib.Data.List.Nodup

/-!
# The `-proc` and `-proc_regex` flags of `bitflow-collect`

Each `-proc` and `-proc_regex` flag is a pair `key=value`. `splitKeyValue` cuts it at the first
`=` found by `strings.Index`, and ends the program through `golib.Checkerr` when there is no `=`
or the key before it is empty. `do_main` then collects the values per key in a Go map,
`regexes[key] = append(regexes[key], regex)`: first every `-proc` value, matched as it is
(`regexp.QuoteMeta`), then every `-proc_regex` value, compiled as a regular expression, where an
error of `regexp.Compile` is fatal as well. One `PsutilProcessCollector` is registered per key of
the map, with the key as its group name and the key's list as its command-line filter.

Go strings are their bytes here, `=` the byte `61`. The map is the list of its entries with each
key once (`StringMap`); Go visits a map in no fixed order, and every statement below about the
registered collectors is about the set of them. `regexp.Compile` is a parameter.

* `splitKeyValue` accepts exactly the texts `key ++ "=" ++ value` with a non-empty key free of
  `=`, returns that key and that value, and fails with its error text on every other text
  (`splitKeyValue_spec`).
* For flags of that form whose regular expressions compile, `do_main` registers one collector per
  key given, whose filters are the key's `-proc` values and then its `-proc_regex` values, each in
  the order given (`registerProcCollectors_groups`).

## Main definitions

* `BitflowCollector.stringsIndex`, `BitflowCollector.splitKeyValue`.
* `BitflowCollector.StringMap`: a Go map with string keys.
* `BitflowCollector.registerProcCollectors`: the `-proc` block of `do_main`.

## Main results

* `BitflowCollector.splitKeyValue_spec`.
* `BitflowCollector.registerProcCollectors_groups`.
-/

namespace BitflowCollector

/-- `strings.Index(s, substr)`: the index of the first occurrence of `substr` in `s`, `-1` when
there is none. -/
def stringsIndex (s substr : List UInt8) : Int :=
  if substr.isPrefixOf s then 0
  else
    match s with
    | [] => -1
    | _ :: rest =>
      let index := stringsIndex rest substr
      if index < 0 then -1 else index + 1

/-- `splitKeyValue`: the bytes before and after the first `=`. When there is no `=`, or the
first one opens the text, `golib.Checkerr` ends the program with the error. -/
def splitKeyValue (pair : List UInt8) : Except String (List UInt8 × List UInt8) :=
  let index := stringsIndex pair [61]
  if index > 0 then .ok (pair.take index.toNat, pair.drop (index.toNat + 1))
  else .error "-proc and -proc_regex must have argument format \x27key=value\x27"

section StringsIndex

variable {b : UInt8}

/-- A byte that is not in `s` has no index in it. -/
private theorem stringsIndex_of_not_mem {s : List UInt8} (h : b ∉ s) : stringsIndex s [b] = -1 := by
  induction s with
  | nil => rfl
  | cons x s ih =>
    have hx : b ≠ x := fun hb => h (hb ▸ List.mem_cons_self b s)
    rw [stringsIndex, if_neg (by simpa [List.isPrefixOf] using hx),
      ih (fun hs => h (List.mem_cons_of_mem x hs))]
    rfl

/-- The index of a byte is the length of the text before its first occurrence. -/
private theorem stringsIndex_append_cons {key : List UInt8} (h : b ∉ key) (value : List UInt8) :
    stringsIndex (key ++ b :: value) [b] = key.length := by
  induction key with
  | nil => simp [stringsIndex, List.isPrefixOf]
  | cons x key ih =>
    have hx : b ≠ x := fun hb => h (hb ▸ List.mem_cons_self b key)
    rw [List.cons_append, stringsIndex, if_neg (by simpa [List.isPrefixOf] using hx)]
    simp only [ih (fun hk => h (List.mem_cons_of_mem x hk)), List.length_cons]
    omega

/-- A text either lacks the byte, or splits at its first occurrence. -/
private theorem not_mem_or_eq_append_cons (s : List UInt8) (b : UInt8) :
    b ∉ s ∨ ∃ key value, s = key ++ b :: value ∧ b ∉ key := by
  induction s with
  | nil => exact .inl (List.not_mem_nil b)
  | cons x s ih =>
    by_cases hx : x = b
    · exact .inr ⟨[], s, by rw [hx]; rfl, List.not_mem_nil b⟩
    · rcases ih with hs | ⟨key, value, rfl, hk⟩
      · exact .inl fun h => (List.mem_cons.1 h).elim (fun h => hx h.symm) hs
      · exact .inr ⟨x :: key, value, rfl,
          fun h => (List.mem_cons.1 h).elim (fun h => hx h.symm) hk⟩

end StringsIndex

/-- At the first `=` of a text, `splitKeyValue` cuts it when the key before is not empty. -/
private theorem splitKeyValue_append_cons {key : List UInt8} (hk : 61 ∉ key) (value : List UInt8) :
    splitKeyValue (key ++ 61 :: value) =
      if key = [] then .error "-proc and -proc_regex must have argument format \x27key=value\x27"
      else .ok (key, value) := by
  rw [splitKeyValue, stringsIndex_append_cons hk, Int.toNat_ofNat]
  cases key with
  | nil => rfl
  | cons x key =>
    have hpos : (0 : Int) < (x :: key).length := by rw [List.length_cons]; omega
    rw [if_pos hpos, if_neg (List.cons_ne_nil x key), List.take_left,
      List.drop_append 1]
    rfl

/-- `splitKeyValue` accepts exactly the pairs `key=value` whose key is not empty and holds no
`=`, and gives back their key and value; the value may hold further `=`. -/
theorem splitKeyValue_eq_ok_iff (pair key value : List UInt8) :
    splitKeyValue pair = .ok (key, value) ↔
      pair = key ++ 61 :: value ∧ key ≠ [] ∧ 61 ∉ key := by
  constructor
  · intro h
    rcases not_mem_or_eq_append_cons pair 61 with hp | ⟨k, v, rfl, hk⟩
    · rw [splitKeyValue, stringsIndex_of_not_mem hp] at h
      cases h
    · rw [splitKeyValue_append_cons hk] at h
      split_ifs at h with hne
      cases h
      exact ⟨rfl, hne, hk⟩
  · rintro ⟨rfl, hne, hk⟩
    rw [splitKeyValue_append_cons hk, if_neg hne]

/-- `splitKeyValue` either cuts the text or fails with its one error text. -/
private theorem splitKeyValue_ok_or_error (pair : List UInt8) :
    (∃ kv, splitKeyValue pair = .ok kv) ∨
      splitKeyValue pair =
        .error "-proc and -proc_regex must have argument format \x27key=value\x27" := by
  dsimp only [splitKeyValue]
  split_ifs
  · exact .inl ⟨_, rfl⟩
  · exact .inr rfl

/-- `splitKeyValue` accepts exactly the pairs `key=value` whose key is not empty and holds no
`=`, and gives back their key and value; on every other text it fails with
`-proc and -proc_regex must have argument format 'key=value'`. -/
theorem splitKeyValue_spec (pair : List UInt8) :
    (∀ key value, splitKeyValue pair = .ok (key, value) ↔
      pair = key ++ 61 :: value ∧ key ≠ [] ∧ 61 ∉ key) ∧
    (splitKeyValue pair =
        .error "-proc and -proc_regex must have argument format \x27key=value\x27" ↔
      ¬∃ key value, pair = key ++ 61 :: value ∧ key ≠ [] ∧ 61 ∉ key) := by
  refine ⟨splitKeyValue_eq_ok_iff pair, fun h ⟨key, value, hkv⟩ => ?_, fun hno => ?_⟩
  · rw [(splitKeyValue_eq_ok_iff pair key value).2 hkv] at h
    exact (nomatch h)
  · rcases splitKeyValue_ok_or_error pair with ⟨⟨key, value⟩, hk⟩ | he
    · exact absurd ⟨key, value, (splitKeyValue_eq_ok_iff pair key value).1 hk⟩ hno
    · exact he

/-- A Go map with string keys: its entries, each key once. -/
structure StringMap (V : Type) where
  entries : List (List UInt8 × V)
  nodup : (entries.map Prod.fst).Nodup

namespace StringMap

variable {V : Type}

/-- The value at `key` in a list of entries. -/
def lookup : List (List UInt8 × V) → List UInt8 → Option V
  | [], _ => none
  | (k, v) :: rest, key => if k = key then some v else lookup rest key

/-- A list of entries with `key` set to `v`: in place when `key` is there, as a last entry when
it is not. -/
def insert : List (List UInt8 × V) → List UInt8 → V → List (List UInt8 × V)
  | [], key, v => [(key, v)]
  | (k, w) :: rest, key, v => if k = key then (k, v) :: rest else (k, w) :: insert rest key v

theorem lookup_insert (es : List (List UInt8 × V)) (key key' : List UInt8) (v : V) :
    lookup (insert es key v) key' = if key = key' then some v else lookup es key' := by
  induction es with
  | nil => rfl
  | cons e es ih =>
    obtain ⟨k, w⟩ := e
    by_cases hk : k = key
    · subst hk
      simp only [insert, lookup, if_true]
      split_ifs <;> rfl
    · simp only [insert, lookup, if_neg hk, ih]
      by_cases hk' : k = key'
      · subst hk'
        simp only [if_true, if_neg (Ne.symm hk)]
      · simp only [if_neg hk']

theorem map_fst_insert (es : List (List UInt8 × V)) (key : List UInt8) (v : V) :
    (insert es key v).map Prod.fst =
      if key ∈ es.map Prod.fst then es.map Prod.fst else es.map Prod.fst ++ [key] := by
  induction es with
  | nil => rfl
  | cons e es ih =>
    obtain ⟨k, w⟩ := e
    by_cases hk : k = key
    · subst hk
      simp [insert]
    · simp only [insert, if_neg hk, List.map_cons, ih, List.mem_cons, Ne.symm hk, false_or]
      split_ifs <;> rfl

theorem nodup_insert {es : List (List UInt8 × V)} (h : (es.map Prod.fst).Nodup)
    (key : List UInt8) (v : V) : ((insert es key v).map Prod.fst).Nodup := by
  rw [map_fst_insert]
  split_ifs with hk
  · exact h
  · exact h.append (List.nodup_singleton key) (List.disjoint_singleton.2 hk)

/-- In entries with distinct keys, the value at a key is the one of its entry. -/
theorem lookup_of_mem {es : List (List UInt8 × V)} (h : (es.map Prod.fst).Nodup)
    {key : List UInt8} {v : V} (hm : (key, v) ∈ es) : lookup es key = some v := by
  induction es with
  | nil => cases hm
  | cons e es ih =>
    obtain ⟨k, w⟩ := e
    rw [List.map_cons, List.nodup_cons] at h
    rcases List.mem_cons.1 hm with he | hm
    · cases he
      simp only [lookup, if_true]
    · have hk : k ≠ key := fun hk => h.1 (List.mem_map.2 ⟨(key, v), hm, hk.symm⟩)
      simp only [lookup, if_neg hk, ih h.2 hm]

theorem lookup_isSome_iff (es : List (List UInt8 × V)) (key : List UInt8) :
    (lookup es key).isSome ↔ key ∈ es.map Prod.fst := by
  induction es with
  | nil => simp [lookup]
  | cons e es ih =>
    obtain ⟨k, w⟩ := e
    by_cases hk : k = key
    · simp [lookup, hk]
    · simp [lookup, hk, ih, Ne.symm hk]

/-- `make(map[string]V)`. -/
def empty : StringMap V := ⟨[], List.nodup_nil⟩

/-- `m[key]`: the value at `key`, Go's zero value `zero` of `V` when there is none. -/
def get (m : StringMap V) (key : List UInt8) (zero : V) : V := (lookup m.entries key).getD zero

/-- `m[key] = v`. -/
def set (m : StringMap V) (key : List UInt8) (v : V) : StringMap V :=
  ⟨insert m.entries key v, nodup_insert m.nodup key v⟩

end StringMap

/-- A command-line filter of a process collector: `regexp.MustCompile(regexp.QuoteMeta(value))`
of a `-proc` value matches the value as it is, `regexp.Compile(value)` of a `-proc_regex` value
reads it as a regular expression. -/
inductive CmdlineFilter
  | literal (value : List UInt8)
  | regex (value : List UInt8)
  deriving DecidableEq, Repr

/-- The fields of `collector.PsutilProcessCollector` that `do_main` sets from the flags of this
block. -/
structure ProcessCollector where
  cmdlineFilter : List CmdlineFilter
  groupName : List UInt8
  deriving DecidableEq, Repr

/-- The body of the `-proc` loop of `do_main`. -/
def procLoop (regexes : StringMap (List CmdlineFilter)) (substr : List UInt8) :
    Except String (StringMap (List CmdlineFilter)) := do
  let (key, value) ← splitKeyValue substr
  let regex := CmdlineFilter.literal value
  pure (regexes.set key (regexes.get key [] ++ [regex]))

/-- The body of the `-proc_regex` loop of `do_main`: `compile` is `regexp.Compile`, and its error
ends the program (`golib.Checkerr(err)`). -/
def procRegexLoop (compile : List UInt8 → Except String Unit)
    (regexes : StringMap (List CmdlineFilter)) (regexStr : List UInt8) :
    Except String (StringMap (List CmdlineFilter)) := do
  let (key, value) ← splitKeyValue regexStr
  compile value
  let regex := CmdlineFilter.regex value
  pure (regexes.set key (regexes.get key [] ++ [regex]))

/-- The `-proc` block of `do_main`: the map from the two loops, and one process collector per
entry of it. -/
def registerProcCollectors (compile : List UInt8 → Except String Unit)
    (procCollectors procCollectorRegex : List (List UInt8)) :
    Except String (List ProcessCollector) :=
  if procCollectors.length > 0 ∨ procCollectorRegex.length > 0 then do
    let regexes ← procCollectors.foldlM procLoop StringMap.empty
    let regexes ← procCollectorRegex.foldlM (procRegexLoop compile) regexes
    pure (regexes.entries.map fun (key, list) => ⟨list, key⟩)
  else pure []

/-- The values given for `key`, in the order given. -/
def valuesOf {α : Type} (kvs : List (List UInt8 × α)) (key : List UInt8) : List α :=
  (kvs.filter fun kv => kv.1 = key).map Prod.snd

section Groups

variable {α β : Type}

theorem valuesOf_append (kvs kvs' : List (List UInt8 × α)) (key : List UInt8) :
    valuesOf (kvs ++ kvs') key = valuesOf kvs key ++ valuesOf kvs' key := by
  simp only [valuesOf, List.filter_append, List.map_append]

theorem valuesOf_map_snd (kvs : List (List UInt8 × α)) (f : α → β) (key : List UInt8) :
    valuesOf (kvs.map fun kv => (kv.1, f kv.2)) key = (valuesOf kvs key).map f := by
  simp only [valuesOf, List.filter_map, List.map_map]
  rfl

theorem valuesOf_eq_nil_iff (kvs : List (List UInt8 × α)) (key : List UInt8) :
    valuesOf kvs key = [] ↔ key ∉ kvs.map Prod.fst := by
  simp only [valuesOf, List.map_eq_nil_iff, List.filter_eq_nil_iff, decide_eq_true_eq, List.mem_map,
    not_exists, not_and]

/-- The map holds, at each key, the values of `kvs` for the key, and no other key. -/
def Groups (m : StringMap (List α)) (kvs : List (List UInt8 × α)) : Prop :=
  ∀ key, StringMap.lookup m.entries key =
    if (valuesOf kvs key).isEmpty then none else some (valuesOf kvs key)

/-- `regexes[key] = append(regexes[key], regex)` appends the value to the key's group. -/
theorem Groups.append {m : StringMap (List α)} {kvs : List (List UInt8 × α)} (h : Groups m kvs)
    (key : List UInt8) (a : α) :
    Groups (m.set key (m.get key [] ++ [a])) (kvs ++ [(key, a)]) := by
  intro key'
  have hget : m.get key [] = valuesOf kvs key := by
    rw [StringMap.get, h key]
    split_ifs with hnil
    · exact (List.isEmpty_iff.1 hnil).symm
    · rfl
  rw [StringMap.set, StringMap.lookup_insert, valuesOf_append, hget]
  by_cases hk : key = key'
  · subst hk
    simp [valuesOf]
  · have : valuesOf [(key, a)] key' = [] := by simp [valuesOf, hk]
    rw [if_neg hk, h key', this, List.append_nil]

/-- The keys of the map are the keys given. -/
theorem Groups.mem_map_fst {m : StringMap (List α)} {kvs : List (List UInt8 × α)}
    (h : Groups m kvs) (key : List UInt8) :
    key ∈ m.entries.map Prod.fst ↔ key ∈ kvs.map Prod.fst := by
  rw [← StringMap.lookup_isSome_iff, h key]
  by_cases hnil : valuesOf kvs key = []
  · rw [if_pos (List.isEmpty_iff.2 hnil)]
    exact iff_of_false Bool.false_ne_true ((valuesOf_eq_nil_iff kvs key).1 hnil)
  · rw [if_neg (mt List.isEmpty_iff.1 hnil)]
    exact iff_of_true rfl (not_not.1 (mt (valuesOf_eq_nil_iff kvs key).2 hnil))

/-- The entry of a key holds the values given for it. -/
theorem Groups.eq_valuesOf {m : StringMap (List α)} {kvs : List (List UInt8 × α)}
    (h : Groups m kvs) {key : List UInt8} {list : List α} (hm : (key, list) ∈ m.entries) :
    list = valuesOf kvs key := by
  have hl := StringMap.lookup_of_mem m.nodup hm
  rw [h key] at hl
  split_ifs at hl
  cases hl
  rfl

/-- The empty map holds the groups of no values. -/
theorem groups_empty : Groups (StringMap.empty : StringMap (List α)) [] := fun _ => rfl

/-- A loop whose body appends one value per element to the element's key collects the values of
all elements, per key and in order. -/
theorem Groups.foldlM {ε : Type}
    {f : StringMap (List α) → β → Except ε (StringMap (List α))}
    {xs : List β} (key : β → List UInt8) (val : β → α)
    (hf : ∀ m, ∀ x ∈ xs, f m x = .ok (m.set (key x) (m.get (key x) [] ++ [val x])))
    {m : StringMap (List α)} {kvs : List (List UInt8 × α)} (h : Groups m kvs) :
    ∃ m', xs.foldlM f m = .ok m' ∧ Groups m' (kvs ++ xs.map fun x => (key x, val x)) := by
  induction xs generalizing m kvs with
  | nil => exact ⟨m, rfl, by rwa [List.map_nil, List.append_nil]⟩
  | cons x xs ih =>
    obtain ⟨m', hm', hg⟩ := ih (fun m y hy => hf m y (List.mem_cons_of_mem x hy))
      (h.append (key x) (val x))
    refine ⟨m', ?_, by rwa [List.append_assoc, List.singleton_append] at hg⟩
    rw [List.foldlM_cons, hf m x (List.mem_cons_self x xs)]
    exact hm'

end Groups

private theorem except_ok_bind {ε α β : Type} (a : α) (f : α → Except ε β) :
    (Except.ok a >>= f) = f a :=
  rfl

/-- On a flag `key=value`, the `-proc` loop appends `value`, matched as it is, to `key`. -/
private theorem procLoop_append_cons (m : StringMap (List CmdlineFilter)) {key : List UInt8}
    (hne : key ≠ []) (hk : 61 ∉ key) (value : List UInt8) :
    procLoop m (key ++ 61 :: value) = .ok (m.set key (m.get key [] ++ [.literal value])) := by
  rw [procLoop, splitKeyValue_append_cons hk, if_neg hne]
  rfl

/-- On a flag `key=value` whose value compiles, the `-proc_regex` loop appends it, as a regular
expression, to `key`. -/
private theorem procRegexLoop_append_cons {compile : List UInt8 → Except String Unit}
    (m : StringMap (List CmdlineFilter)) {key : List UInt8} (hne : key ≠ []) (hk : 61 ∉ key)
    {value : List UInt8} (hc : compile value = .ok ()) :
    procRegexLoop compile m (key ++ 61 :: value) =
      .ok (m.set key (m.get key [] ++ [.regex value])) := by
  rw [procRegexLoop, splitKeyValue_append_cons hk, if_neg hne]
  show (compile value >>= _) = _
  rw [hc]
  rfl

/-- For `-proc` and `-proc_regex` flags `key=value` with non-empty keys free of `=`, whose regular
expressions compile, `do_main` registers one process collector per key given, and the filters of
the key's collector are its `-proc` values and then its `-proc_regex` values, in the order given. -/
theorem registerProcCollectors_groups (compile : List UInt8 → Except String Unit)
    (procs regexes : List (List UInt8 × List UInt8))
    (hkey : ∀ kv ∈ procs ++ regexes, kv.1 ≠ [] ∧ 61 ∉ kv.1)
    (hcompile : ∀ kv ∈ regexes, compile kv.2 = .ok ()) :
    ∃ cs, registerProcCollectors compile (procs.map fun kv => kv.1 ++ 61 :: kv.2)
        (regexes.map fun kv => kv.1 ++ 61 :: kv.2) = .ok cs ∧
      (cs.map ProcessCollector.groupName).Nodup ∧
      (∀ key, key ∈ cs.map ProcessCollector.groupName ↔
        key ∈ (procs ++ regexes).map Prod.fst) ∧
      ∀ c ∈ cs, c.cmdlineFilter =
        (valuesOf procs c.groupName).map .literal ++ (valuesOf regexes c.groupName).map .regex := by
  have hp : ∀ kv ∈ procs, kv.1 ≠ [] ∧ 61 ∉ kv.1 :=
    fun kv h => hkey kv (List.mem_append_left _ h)
  have hr : ∀ kv ∈ regexes, kv.1 ≠ [] ∧ 61 ∉ kv.1 :=
    fun kv h => hkey kv (List.mem_append_right _ h)
  obtain ⟨m₁, hm₁, hg₁⟩ :=
    groups_empty.foldlM Prod.fst (fun kv => CmdlineFilter.literal kv.2)
    (fun m kv h => procLoop_append_cons m (hp kv h).1 (hp kv h).2 kv.2)
  obtain ⟨m₂, hm₂, hg₂⟩ := hg₁.foldlM Prod.fst (fun kv => CmdlineFilter.regex kv.2)
    (fun m kv h => procRegexLoop_append_cons m (hr kv h).1 (hr kv h).2 (hcompile kv h))
  have hvalues : ∀ key,
      valuesOf (([] ++ procs.map fun kv => (kv.1, CmdlineFilter.literal kv.2)) ++
        regexes.map fun kv => (kv.1, CmdlineFilter.regex kv.2)) key =
        (valuesOf procs key).map .literal ++ (valuesOf regexes key).map .regex := fun key => by
    rw [List.nil_append, valuesOf_append, valuesOf_map_snd, valuesOf_map_snd]
  have hkeys : (m₂.entries.map fun (key, list) => (⟨list, key⟩ : ProcessCollector)).map
      ProcessCollector.groupName = m₂.entries.map Prod.fst := by
    rw [List.map_map]
    exact List.map_congr_left fun _ _ => rfl
  by_cases hpos : procs.length > 0 ∨ regexes.length > 0
  · refine ⟨m₂.entries.map fun (key, list) => ⟨list, key⟩, ?_,
      by rw [hkeys]; exact m₂.nodup, fun key => ?_, fun c hc => ?_⟩
    · rw [registerProcCollectors, if_pos (by simpa only [List.length_map] using hpos),
        List.foldlM_map, hm₁, except_ok_bind, List.foldlM_map, hm₂]
      rfl
    · rw [hkeys, hg₂.mem_map_fst]
      simp only [List.nil_append, List.map_append, List.map_map]
      rfl
    · obtain ⟨⟨key, list⟩, hmem, rfl⟩ := List.mem_map.1 hc
      exact (hg₂.eq_valuesOf hmem).trans (hvalues key)
  · obtain ⟨rfl, rfl⟩ : procs = [] ∧ regexes = [] := by
      simpa only [not_or, gt_iff_lt, not_lt, Nat.le_zero, List.length_eq_zero] using hpos
    exact ⟨[], rfl, List.nodup_nil, fun key => by simp,
      fun c hc => absurd hc (List.not_mem_nil c)⟩

/-- Two `-proc` flags and one `-proc_regex` flag for the key `w`, one `-proc` flag for `d`; the
value of the third flag is `=` itself. -/
theorem registerProcCollectors_groups_two_keys :
    (∀ kv ∈ ([([119], [110]), ([100], [109]), ([119], [61])] ++ [([119], [46, 42])] :
        List (List UInt8 × List UInt8)), kv.1 ≠ [] ∧ 61 ∉ kv.1) ∧
      (∀ kv ∈ ([([119], [46, 42])] : List (List UInt8 × List UInt8)),
        (fun _ => .ok () : List UInt8 → Except String Unit) kv.2 = .ok ()) ∧
      ∃ cs, registerProcCollectors (fun _ => .ok ())
          (([([119], [110]), ([100], [109]), ([119], [61])] : List (List UInt8 × List UInt8)).map
            fun kv => kv.1 ++ 61 :: kv.2)
          (([([119], [46, 42])] : List (List UInt8 × List UInt8)).map
            fun kv => kv.1 ++ 61 :: kv.2) = .ok cs ∧
        (cs.map ProcessCollector.groupName).Nodup ∧
        (∀ key, key ∈ cs.map ProcessCollector.groupName ↔
          key ∈ ([([119], [110]), ([100], [109]), ([119], [61])] ++ [([119], [46, 42])] :
            List (List UInt8 × List UInt8)).map Prod.fst) ∧
        ∀ c ∈ cs, c.cmdlineFilter =
          (valuesOf [([119], [110]), ([100], [109]), ([119], [61])] c.groupName).map .literal ++
            (valuesOf [([119], [46, 42])] c.groupName).map .regex :=
  ⟨by decide, fun _ _ => rfl, registerProcCollectors_groups (fun _ => .ok ())
    [([119], [110]), ([100], [109]), ([119], [61])] [([119], [46, 42])] (by decide)
    (fun _ _ => rfl)⟩

/-- A loop over a list stops with an error at an element on which its body always fails. -/
private theorem foldlM_eq_error {σ β ε : Type} {f : σ → β → Except ε σ} {xs : List β} {x : β}
    (hx : x ∈ xs) (hf : ∀ m, ∃ e, f m x = .error e) (m : σ) :
    ∃ e, xs.foldlM f m = .error e := by
  induction xs generalizing m with
  | nil => cases hx
  | cons y ys ih =>
    rw [List.foldlM_cons]
    rcases List.mem_cons.1 hx with rfl | hx
    · obtain ⟨e, he⟩ := hf m
      exact ⟨e, by rw [he]; rfl⟩
    · cases hy : f m y with
      | error e => exact ⟨e, rfl⟩
      | ok m' => exact ih hx m'

/-- A `-proc` or `-proc_regex` flag that is not of the form `key=value` ends the program, whatever
the other flags. -/
theorem registerProcCollectors_malformed (compile : List UInt8 → Except String Unit)
    (procs regexes : List (List UInt8)) {pair : List UInt8} (hpair : pair ∈ procs ++ regexes)
    (hbad : ∀ kv, splitKeyValue pair ≠ .ok kv) :
    ∃ e, registerProcCollectors compile procs regexes = .error e := by
  obtain ⟨e, he⟩ : ∃ e, splitKeyValue pair = .error e := by
    cases h : splitKeyValue pair with
    | error e => exact ⟨e, rfl⟩
    | ok kv => exact absurd h (hbad kv)
  have hpos : procs.length > 0 ∨ regexes.length > 0 :=
    (List.mem_append.1 hpair).imp List.length_pos_of_mem List.length_pos_of_mem
  have hproc : ∀ m, ∃ e, procLoop m pair = .error e :=
    fun m => ⟨e, by rw [procLoop, he]; rfl⟩
  have hregex : ∀ m, ∃ e, procRegexLoop compile m pair = .error e :=
    fun m => ⟨e, by rw [procRegexLoop, he]; rfl⟩
  rw [registerProcCollectors, if_pos hpos]
  rcases List.mem_append.1 hpair with h | h
  · obtain ⟨e', he'⟩ := foldlM_eq_error h hproc StringMap.empty
    exact ⟨e', by rw [he']; rfl⟩
  · cases h₁ : procs.foldlM procLoop StringMap.empty with
    | error e' => exact ⟨e', rfl⟩
    | ok m₁ =>
      obtain ⟨e', he'⟩ := foldlM_eq_error h hregex m₁
      exact ⟨e', by rw [except_ok_bind, he']; rfl⟩

/-- A `-proc_regex` flag without `=` after a well-formed `-proc` flag. -/
theorem registerProcCollectors_malformed_no_separator :
    [119] ∈ ([[119, 61, 110]] ++ [[119]] : List (List UInt8)) ∧
      (∀ kv, splitKeyValue [119] ≠ .ok kv) ∧
      ∃ e, registerProcCollectors (fun _ => .ok ()) [[119, 61, 110]] [[119]] = .error e :=
  have hbad : ∀ kv, splitKeyValue [119] ≠ .ok kv :=
    fun _ h => Except.noConfusion (h.symm.trans (rfl : splitKeyValue [119] = .error _))
  ⟨by decide, hbad, registerProcCollectors_malformed (fun _ => .ok ()) [[119, 61, 110]] [[119]]
    (by decide) hbad⟩

end BitflowCollector
