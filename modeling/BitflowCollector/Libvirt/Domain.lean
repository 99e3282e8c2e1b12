import Mathlib.Data.List.Basic

/-!
# The memory statistics of a libvirt domain

`DomainImpl.MemoryStats` asks libvirt for up to `MAX_NUM_MEMORY_STATS` statistics and runs over
them with a `switch` on the tag: a stat tagged `DOMAIN_MEMORY_STAT_UNUSED` sets `Unused`, one
tagged `DOMAIN_MEMORY_STAT_AVAILABLE` sets `Available`, and every other tag is skipped. On an
error of libvirt the result is the zero value, with the error.

So each field is the value of the last stat of its tag, and `0` when libvirt lists none
(`memoryStats_ok`).

## Main definitions

* `BitflowCollector.Libvirt.memoryStats`: `DomainImpl.MemoryStats` on libvirt's answer.
* `BitflowCollector.Libvirt.lastVal`: the value of the last stat with a tag.

## Main results

* `BitflowCollector.Libvirt.memoryStats_ok`.
-/

namespace BitflowCollector

namespace Libvirt

/-- `lib.DomainMemoryStat`: the tag (an `int32` in libvirt-go) and the value. -/
structure DomainMemoryStat where
  tag : Int
  val : UInt64
  deriving DecidableEq, Repr

/-- `lib.DOMAIN_MEMORY_STAT_UNUSED`, libvirt's `VIR_DOMAIN_MEMORY_STAT_UNUSED`. -/
def domainMemoryStatUnused : Int := 4

/-- `lib.DOMAIN_MEMORY_STAT_AVAILABLE`, libvirt's `VIR_DOMAIN_MEMORY_STAT_AVAILABLE`. -/
def domainMemoryStatAvailable : Int := 5

/-- The fields of `VirDomainMemoryStat` that `MemoryStats` sets. -/
structure VirDomainMemoryStat where
  unused : UInt64
  available : UInt64
  deriving DecidableEq, Repr

/-- The `switch` on one stat in the loop of `MemoryStats`. -/
def memoryStatsSwitch (res : VirDomainMemoryStat) (stat : DomainMemoryStat) :
    VirDomainMemoryStat :=
  if stat.tag = domainMemoryStatUnused then { res with unused := stat.val }
  else if stat.tag = domainMemoryStatAvailable then { res with available := stat.val }
  else res

/-- `DomainImpl.MemoryStats`, given libvirt's answer to
`MemoryStats(MAX_NUM_MEMORY_STATS, NO_FLAGS)`. -/
def memoryStats (answer : Except String (List DomainMemoryStat)) :
    VirDomainMemoryStat × Option String :=
  match answer with
  | .error err => (⟨0, 0⟩, some err)
  | .ok stats => (stats.foldl memoryStatsSwitch ⟨0, 0⟩, none)

/-- The value of the last stat with the tag, `none` when there is none. -/
def lastVal (stats : List DomainMemoryStat) (tag : Int) : Option UInt64 :=
  (stats.reverse.find? fun stat => stat.tag = tag).map DomainMemoryStat.val

private theorem lastVal_cons (x : DomainMemoryStat) (xs : List DomainMemoryStat) (tag : Int) :
    lastVal (x :: xs) tag = (lastVal xs tag).or (if x.tag = tag then some x.val else none) := by
  simp only [lastVal, List.reverse_cons, List.find?_append, List.find?_singleton,
    decide_eq_true_eq]
  cases xs.reverse.find? (fun stat => stat.tag = tag) <;> split_ifs <;> rfl

private theorem getD_or_ite {α : Type} (o : Option α) (c : Prop) [Decidable c] (v d : α) :
    (o.or (if c then some v else none)).getD d = o.getD (if c then v else d) := by
  cases o <;> split_ifs <;> rfl

theorem unused_memoryStatsSwitch (res : VirDomainMemoryStat) (stat : DomainMemoryStat) :
    (memoryStatsSwitch res stat).unused =
      if stat.tag = domainMemoryStatUnused then stat.val else res.unused := by
  unfold memoryStatsSwitch
  split_ifs <;> rfl

/-- The `AVAILABLE` case of the `switch` is reached, since the two tags differ. -/
theorem available_memoryStatsSwitch (res : VirDomainMemoryStat) (stat : DomainMemoryStat) :
    (memoryStatsSwitch res stat).available =
      if stat.tag = domainMemoryStatAvailable then stat.val else res.available := by
  unfold memoryStatsSwitch
  split_ifs with hu ha ha
  · exact absurd (hu.symm.trans ha) (by decide)
  all_goals rfl

/-- From any start, the loop of `MemoryStats` leaves in each field the value of the last stat of
its tag, and the start's value when there is none. -/
theorem foldl_memoryStatsSwitch (stats : List DomainMemoryStat) (res : VirDomainMemoryStat) :
    stats.foldl memoryStatsSwitch res =
      ⟨(lastVal stats domainMemoryStatUnused).getD res.unused,
        (lastVal stats domainMemoryStatAvailable).getD res.available⟩ := by
  induction stats generalizing res with
  | nil => rfl
  | cons x xs ih =>
    rw [List.foldl_cons, ih, lastVal_cons, lastVal_cons, getD_or_ite, getD_or_ite,
      unused_memoryStatsSwitch, available_memoryStatsSwitch]

/-- On every list of stats of libvirt, `MemoryStats` reports as `Unused` and `Available` the
value of the last stat of each tag, `0` for a tag libvirt does not list, and no error. -/
theorem memoryStats_ok (stats : List DomainMemoryStat) :
    memoryStats (.ok stats) =
      (⟨(lastVal stats domainMemoryStatUnused).getD 0,
        (lastVal stats domainMemoryStatAvailable).getD 0⟩, none) := by
  rw [memoryStats, foldl_memoryStatsSwitch]

end Libvirt

end BitflowCollector
