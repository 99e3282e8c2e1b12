import Mathlib.Algebra.Order.Ring.Rat
import Mathlib.Algebra.Order.Group.Nat
import Mathlib.Data.List.Rotate

/-!
# The value ring

`value_ring.go` keeps, for every metric a collector exposes, a fixed-length slice of timestamped
samples and answers "what was the rate of change over the last `interval`". This file translates
it function by function.

Go's `int` indices and `time.Time`, `time.Duration` (nanoseconds) are `Int`; `bitflow.Value`
(a `float64`) is `ℚ`, so rates are exact. Exact values also decide the branch of `GetDiff`: a
negative rate so close to `0` that `float64` underflows becomes `-0.0` in Go, which is not
`< 0`, so Go answers it where the model takes the branch for negative rates; rounding and
overflow of `float64` are not modelled. A slice is a `List`, and every slice access goes
through `sliceGet` or `sliceSet`, whose `none` is Go's index-out-of-range panic; a function that
indexes the slice therefore returns an `Option`. `FlushHead` reads `time.Now()`; here the instant
is its argument `now`. The lock of the ring is not a field: every locked method is one function,
run as one atomic step by `BitflowCollector.ValueRing.step`.

The two loops of `get` and of `flush` are `for i := hi; i >= lo; i--` loops whose body may
`return` from the whole function. Both are `forRange body hi lo`, with the body answering
`Flow.next` (go on with `i - 1`) or `Flow.exit` (return).

## Main definitions

* `BitflowCollector.LogbackValue`: the interface of sample values, `DiffValue` and `AddValue`.
* `BitflowCollector.TimedValue`, `BitflowCollector.ValueRingFactory`,
  `BitflowCollector.ValueRing`: the Go types.
* `BitflowCollector.ValueRingFactory.newValueRing`.
* `BitflowCollector.ValueRing.addToHead`, `flushHead`, `add`, `increment`, `getDiff`,
  `getHeadValue` (the exported `GetHead`) and the internal `getDiffInterval`, `getHead`, `get`,
  `flush`.
* `BitflowCollector.StoredValue`: the scalar sample, with `addValueToHead`, `addValue` and
  `incrementValue` on rings of it.
-/

namespace BitflowCollector

/-! ### Go slices and loops -/

/-- `xs[i]` on a Go slice; `none` is the index-out-of-range panic. -/
def sliceGet {α : Type} (xs : List α) (i : Int) : Option α :=
  if 0 ≤ i then xs[i.toNat]? else none

/-- `xs[i] = x` on a Go slice; `none` is the index-out-of-range panic. -/
def sliceSet {α : Type} (xs : List α) (i : Int) (x : α) : Option (List α) :=
  if 0 ≤ i ∧ i < xs.length then some (xs.set i.toNat x) else none

/-- What the body of a loop does next: go on with the next index, or return from the function. -/
inductive Flow (σ : Type) where
  | next (s : σ)
  | exit (s : σ)
deriving DecidableEq, Repr

/-- The state a loop body left, whichever way it ended. -/
def Flow.state {σ : Type} : Flow σ → σ
  | .next s | .exit s => s

/-- `n` iterations of a down-counting loop, the first at index `i`. -/
def forDown {σ : Type} (body : Int → σ → Option (Flow σ)) : Nat → Int → σ → Option (Flow σ)
  | 0, _, s => some (.next s)
  | n + 1, i, s => body i s >>= fun
    | .next s' => forDown body n (i - 1) s'
    | .exit s' => some (.exit s')

/-- `for i := hi; i >= lo; i-- { body }`: the indices `hi, hi - 1, …, lo`. -/
def forRange {σ : Type} (body : Int → σ → Option (Flow σ)) (hi lo : Int) (s : σ) :
    Option (Flow σ) :=
  forDown body (hi - lo + 1).toNat hi s

/-! ### Values -/

/-- The `LogbackValue` interface: `diffValue val previous interval` is the rate from `previous`
to `val` over `interval` nanoseconds, `addValue val other` aggregates two samples. -/
class LogbackValue (V : Type) where
  diffValue : V → V → Int → ℚ
  addValue : V → V → V

/-- A slot of the ring: the instant of recording and the sample, `none` for Go's `nil`. -/
structure TimedValue (V : Type) where
  time : Int
  val : Option V
deriving DecidableEq, Repr

/-- The zero `TimedValue`, which `make` puts in every slot. -/
def TimedValue.zero {V : Type} : TimedValue V := ⟨0, none⟩

/-- The configuration shared by the rings of all collectors. -/
structure ValueRingFactory where
  length : Int
  interval : Int
deriving DecidableEq, Repr

/-- The ring. `head` is the slot the next commit writes, one past the newest sample. -/
structure ValueRing (V : Type) where
  interval : Int
  values : List (TimedValue V)
  head : Int
  aggregator : Option V
  previousDiff : ℚ
deriving DecidableEq, Repr

/-- `NewValueRing`; `make` panics on a negative length. -/
def ValueRingFactory.newValueRing {V : Type} (factory : ValueRingFactory) :
    Option (ValueRing V) :=
  if factory.length < 0 then none
  else some { interval := factory.interval
              values := List.replicate factory.length.toNat TimedValue.zero
              head := 0
              aggregator := none
              previousDiff := 0 }

namespace ValueRing

variable {V : Type} [LogbackValue V]

/-! ### Writers -/

/-- `AddToHead`: aggregate `val` into the sample of the next commit. -/
def addToHead (val : V) (ring : ValueRing V) : ValueRing V :=
  { ring with aggregator := match ring.aggregator with
                            | none => some val
                            | some agg => some (LogbackValue.addValue agg val) }

/-- `FlushHead`: commit the aggregated sample at instant `now` and advance the head. -/
def flushHead (now : Int) (ring : ValueRing V) : Option (ValueRing V) :=
  (sliceSet ring.values ring.head ⟨now, ring.aggregator⟩).map fun values =>
    { ring with
      values
      head := if ring.head ≥ ring.values.length - 1 then 0 else ring.head + 1
      aggregator := none }

/-- `Add`. -/
def add (now : Int) (val : V) (ring : ValueRing V) : Option (ValueRing V) :=
  (ring.addToHead val).flushHead now

/-! ### Readers -/

/-- The internal `getHead`: the newest slot, at `head - 1` or, for `head = 0`, the last one. -/
def getHead (ring : ValueRing V) : Option (TimedValue V) :=
  sliceGet ring.values (if ring.head ≤ 0 then ring.values.length - 1 else ring.head - 1)

/-- The exported `GetHead`: the newest sample, `none` (Go's `nil`) for an empty ring. -/
def getHeadValue (ring : ValueRing V) : Option (Option V) :=
  ring.getHead.map (·.val)

/-- `Increment`: aggregate `val` into the newest sample, if any, and commit the result. -/
def increment (now : Int) (val : V) (ring : ValueRing V) : Option (ValueRing V) :=
  ring.getHead >>= fun cur =>
    ring.add now (match cur.val with
                  | some c => LogbackValue.addValue c val
                  | none => val)

/-- The closure `walkRing` of `get`: an empty slot ends the scan with the result so far;
otherwise the slot becomes the result, and the scan ends if it is older than `before`. -/
def walkRing (values : List (TimedValue V)) (before : Int) (i : Int) (result : TimedValue V) :
    Option (Flow (TimedValue V)) :=
  (sliceGet values i).map fun v =>
    match v.val with
    | none => .exit result
    | some _ => if v.time < before then .exit v else .next v

/-- `get`: walk from `head - 1` down to `0`, then from the last slot down to `head`. -/
def get (ring : ValueRing V) (before : Int) : Option (TimedValue V) :=
  forRange (walkRing ring.values before) (ring.head - 1) 0 TimedValue.zero >>= fun
    | .exit result => some result
    | .next result =>
      (forRange (walkRing ring.values before) (ring.values.length - 1) ring.head result).map
        Flow.state

/-- `getDiffInterval`: the rate from the newest sample back to the one `get` finds at
`before` nanoseconds earlier; `0` for an empty ring or no elapsed time. -/
def getDiffInterval (ring : ValueRing V) (before : Int) : Option ℚ :=
  ring.getHead >>= fun head =>
    match head.val with
    | none => some 0
    | some headVal =>
      (ring.get (head.time - before)).map fun previous =>
        match previous.val with
        | none => 0
        | some previousVal =>
          if head.time - previous.time = 0 then 0
          else LogbackValue.diffValue headVal previousVal (head.time - previous.time)

/-- The body of both loops of `flush`: an empty slot ends the flush, a full one is emptied. -/
def flushSlot (i : Int) (values : List (TimedValue V)) : Option (Flow (List (TimedValue V))) :=
  sliceGet values i >>= fun v =>
    match v.val with
    | none => some (.exit values)
    | some _ => (sliceSet values i { v with val := none }).map .next

/-- `flush`: empty the slots from `start` (shifted by the length when negative) down to `0`,
then from the last slot down to `head`, stopping at the first empty slot. -/
def flush (ring : ValueRing V) (start : Int) : Option (ValueRing V) :=
  let start := if start < 0 then start + ring.values.length else start
  forRange flushSlot start 0 ring.values >>= fun
    | .exit values => some { ring with values }
    | .next values =>
      (forRange flushSlot (ring.values.length - 1) ring.head values).map fun f =>
        { ring with values := f.state }

/-- `GetDiff`: the rate over the ring's interval; a negative rate, taken for an overflown
counter, answers the previous rate and flushes all samples but the newest. -/
def getDiff (ring : ValueRing V) : Option (ℚ × ValueRing V) :=
  ring.getDiffInterval ring.interval >>= fun val =>
    if val < 0 then (ring.flush (ring.head - 2)).map fun ring' => (ring.previousDiff, ring')
    else some (val, { ring with previousDiff := val })

end ValueRing

/-! ### Scalar samples -/

/-- `StoredValue`, the scalar sample. -/
structure StoredValue where
  value : ℚ
deriving DecidableEq, Repr

/-- `interval.Seconds()`: a duration in nanoseconds, in seconds. -/
def seconds (interval : Int) : ℚ := interval / 1000000000

/-- `StoredValue.DiffValue`. -/
def StoredValue.diffValue (val previous : StoredValue) (interval : Int) : ℚ :=
  (val.value - previous.value) / seconds interval

/-- `StoredValue.AddValue`. -/
def StoredValue.addValue (val other : StoredValue) : StoredValue :=
  ⟨val.value + other.value⟩

instance : LogbackValue StoredValue where
  diffValue := StoredValue.diffValue
  addValue := StoredValue.addValue

@[simp] theorem StoredValue.logbackValue_diffValue (val previous : StoredValue) (interval : Int) :
    LogbackValue.diffValue val previous interval = val.diffValue previous interval := rfl

@[simp] theorem StoredValue.logbackValue_addValue (val other : StoredValue) :
    LogbackValue.addValue val other = val.addValue other := rfl

namespace ValueRing

/-- `AddValueToHead`. -/
def addValueToHead (val : ℚ) (ring : ValueRing StoredValue) : ValueRing StoredValue :=
  ring.addToHead ⟨val⟩

/-- `AddValue`. -/
def addValue (now : Int) (val : ℚ) (ring : ValueRing StoredValue) :
    Option (ValueRing StoredValue) :=
  ring.add now ⟨val⟩

/-- `IncrementValue`. -/
def incrementValue (now : Int) (val : ℚ) (ring : ValueRing StoredValue) :
    Option (ValueRing StoredValue) :=
  ring.increment now ⟨val⟩

end ValueRing

end BitflowCollector
