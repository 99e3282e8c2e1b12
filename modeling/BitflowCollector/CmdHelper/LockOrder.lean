import BitflowCollector.CmdHelper.FileOutput

/-!
# The locked sections of concurrent requests

`handleRequest` reads and writes `FileOutputEnabled` under `api.lock`, and reads it once more
after `Unlock` for its reply. However concurrent calls interleave, their locked sections run one
at a time, in the order in which the calls first run (`lockOrder`). Along every interleaving of
calls that have not started (`Server.run_lockInv`):

* `FileOutputEnabled` is what the locked sections leave, run alone in that order from the status
  before the calls: no update is lost (`LockInv.api_eq`);
* each locked section reads as `oldStatus` the status the locked sections before it left, and sets
  `newStatus` from it by its method (`LockInv.locked`);
* a reply, and the line its call logs, report the status the locked sections left up to some
  point after the call's own one (`LockInv.replied`): never older than the call's own update,
  though it may be newer.

## Main definitions

* `BitflowCollector.CmdHelper.lockOrder`, `BitflowCollector.CmdHelper.statusAfter`.
* `BitflowCollector.CmdHelper.LockInv`.

## Main results

* `BitflowCollector.CmdHelper.Server.run_lockInv`.
-/

namespace BitflowCollector

namespace CmdHelper

/-! ### The order of the locked sections -/

/-- The calls of an interleaving in the order their locked sections run, when no call has
started: each call where it first appears. -/
def lockOrder (order : List Nat) : List Nat :=
  order.foldl (fun locks i => if i ∈ locks then locks else locks ++ [i]) []

/-- The status that the locked sections of the calls `locks` of `s` leave, run alone in that
order from `status`. -/
def statusAfter (s : Server) (locks : List Nat) (status : Bool) : Bool :=
  locks.foldl (fun b i => ((s.requests[i]?).map fun r => newStatusOf r.method b).getD b) status

private theorem lockOrder_concat (order : List Nat) (i : Nat) :
    lockOrder (order ++ [i]) =
      if i ∈ lockOrder order then lockOrder order else lockOrder order ++ [i] :=
  List.foldl_concat _ _ _ _

theorem mem_lockOrder {order : List Nat} {i : Nat} : i ∈ lockOrder order ↔ i ∈ order := by
  induction order using List.reverseRecOn with
  | nil => simp [lockOrder]
  | append_singleton order j ih =>
    rw [lockOrder_concat]
    split_ifs with hj
    · rw [ih, List.mem_append, List.mem_singleton]
      exact ⟨.inl, fun h => h.elim id fun h => ih.1 (by rw [h]; exact hj)⟩
    · rw [List.mem_append, List.mem_append, ih]

private theorem statusAfter_concat (s : Server) (locks : List Nat) (i : Nat) (status : Bool) :
    statusAfter s (locks ++ [i]) status =
      ((s.requests[i]?).map fun r => newStatusOf r.method (statusAfter s locks status)).getD
        (statusAfter s locks status) :=
  List.foldl_concat _ _ _ _

/-! ### One section -/

/-- The statuses a call's locked section read and set, once it ran. -/
def Phase.statuses : Phase → Option (Bool × Bool)
  | .start => none
  | .unlocked oldStatus newStatus => some (oldStatus, newStatus)
  | .answered oldStatus newStatus _ _ => some (oldStatus, newStatus)

/-- What a section of a call does: its locked section, from `.start`, or its reply, from
`.unlocked`. -/
theorem Server.step_eq_some {s s' : Server} {i : Nat} (h : s.step i = some s') :
    ∃ r, s.requests[i]? = some r ∧
      ((r.phase = .start ∧
          s' = ⟨⟨newStatusOf r.method s.api.fileOutputEnabled⟩, s.requests.set i
            ⟨r.method, .unlocked s.api.fileOutputEnabled
              (newStatusOf r.method s.api.fileOutputEnabled)⟩⟩) ∨
        ∃ o n, r.phase = .unlocked o n ∧
          s' = ⟨s.api, s.requests.set i
            ⟨r.method, .answered o n (statusText s.api.fileOutputEnabled ++ "\n")
              (if o ≠ n then some (statusText s.api.fileOutputEnabled) else none)⟩⟩) := by
  obtain ⟨r, hr, h⟩ := Option.bind_eq_some.1 h
  refine ⟨r, hr, ?_⟩
  cases hp : r.phase with
  | start => simp only [hp, Option.some.injEq] at h; exact .inl ⟨rfl, h.symm⟩
  | unlocked o n => simp only [hp, Option.some.injEq] at h; exact .inr ⟨o, n, rfl, h.symm⟩
  | answered o n reply logged => simp [hp] at h

/-! ### Every interleaving -/

/-- What the calls of `s₀`, none of them started, leave in `s` after the interleaving `order`:
the calls keep their methods; `FileOutputEnabled` is what their locked sections leave, run alone
in the order they ran; a call has not started exactly when it does not appear in `order`; a
locked section read what the sections before it left; a reply and its log line report what the
locked sections left up to some point after the call's own. -/
structure LockInv (s₀ : Server) (order : List Nat) (s : Server) : Prop where
  method_eq : ∀ j : Nat, (s.requests[j]?).map Request.method = (s₀.requests[j]?).map Request.method
  api_eq : s.api.fileOutputEnabled =
    statusAfter s₀ (lockOrder order) s₀.api.fileOutputEnabled
  start_iff : ∀ (j : Nat) r, s.requests[j]? = some r → (r.phase = .start ↔ j ∉ order)
  locked : ∀ (j : Nat) r o n, s.requests[j]? = some r → r.phase.statuses = some (o, n) →
    ∃ A B, lockOrder order = A ++ j :: B ∧
      o = statusAfter s₀ A s₀.api.fileOutputEnabled ∧ n = newStatusOf r.method o
  replied : ∀ (j : Nat) r o n reply logged, s.requests[j]? = some r →
    r.phase = .answered o n reply logged →
    ∃ k ≤ order.length, j ∈ order.take k ∧
      reply = statusText
        (statusAfter s₀ (lockOrder (order.take k)) s₀.api.fileOutputEnabled) ++ "\n" ∧
      logged = if o ≠ n then some (statusText
        (statusAfter s₀ (lockOrder (order.take k)) s₀.api.fileOutputEnabled)) else none

namespace LockInv

variable {s₀ s : Server} {order : List Nat} {i : Nat} {r : Request}

/-- A section of the call `i` changes that call only, keeping its method and moving it on from
`.start`: every other call keeps what the invariant says of it. -/
theorem set (inv : LockInv s₀ order s) (hr : s.requests[i]? = some r) (api : FileOutputFilterApi)
    (phase : Phase) (hphase : phase ≠ .start)
    (hlock : lockOrder (order ++ [i]) = lockOrder order ∨
      lockOrder (order ++ [i]) = lockOrder order ++ [i])
    (hapi : api.fileOutputEnabled =
      statusAfter s₀ (lockOrder (order ++ [i])) s₀.api.fileOutputEnabled)
    (hlocked : ∀ o n, phase.statuses = some (o, n) →
      ∃ A B, lockOrder (order ++ [i]) = A ++ i :: B ∧
        o = statusAfter s₀ A s₀.api.fileOutputEnabled ∧ n = newStatusOf r.method o)
    (hreplied : ∀ o n reply logged, phase = .answered o n reply logged →
      ∃ k ≤ (order ++ [i]).length, i ∈ (order ++ [i]).take k ∧
        reply = statusText (statusAfter s₀ (lockOrder ((order ++ [i]).take k))
          s₀.api.fileOutputEnabled) ++ "\n" ∧
        logged = if o ≠ n then some (statusText (statusAfter s₀
          (lockOrder ((order ++ [i]).take k)) s₀.api.fileOutputEnabled)) else none) :
    LockInv s₀ (order ++ [i]) ⟨api, s.requests.set i ⟨r.method, phase⟩⟩ := by
  have hlt : i < s.requests.length := (List.getElem?_eq_some_iff.1 hr).1
  have hset : ∀ j : Nat, (s.requests.set i ⟨r.method, phase⟩)[j]? =
      if i = j then some ⟨r.method, phase⟩ else s.requests[j]? := fun j => by
    rw [List.getElem?_set, if_pos hlt]
  refine ⟨fun j => ?_, hapi, fun j r' hj => ?_, fun j r' o n hj hs => ?_,
    fun j r' o n reply logged hj hp => ?_⟩
  · rw [hset]
    split_ifs with hij
    · subst hij; rw [← inv.method_eq, hr]; rfl
    · exact inv.method_eq j
  · rw [hset] at hj
    split_ifs at hj with hij
    · subst hij; cases hj
      simp only [ne_eq, hphase, false_iff, not_not, List.mem_append, List.mem_singleton, or_true]
    · rw [inv.start_iff j r' hj, List.mem_append, List.mem_singleton]
      exact ⟨fun h h' => h (h'.resolve_right (Ne.symm hij)), fun h h' => h (.inl h')⟩
  · rw [hset] at hj
    split_ifs at hj with hij
    · subst hij; cases hj; exact hlocked o n hs
    · obtain ⟨A, B, hAB, ho, hn⟩ := inv.locked j r' o n hj hs
      rcases hlock with h | h
      · exact ⟨A, B, by rw [h, hAB], ho, hn⟩
      · exact ⟨A, B ++ [i], by rw [h, hAB]; simp, ho, hn⟩
  · rw [hset] at hj
    split_ifs at hj with hij
    · subst hij; cases hj; exact hreplied o n reply logged hp
    · obtain ⟨k, hk, hjk, hrep, hlg⟩ := inv.replied j r' o n reply logged hj hp
      have htake : (order ++ [i]).take k = order.take k := List.take_append_of_le_length hk
      exact ⟨k, by simp only [List.length_append]; omega, htake ▸ hjk, htake ▸ hrep, htake ▸ hlg⟩

theorem init (hs : ∀ r ∈ s₀.requests, r.phase = .start) : LockInv s₀ [] s₀ := by
  have hst : ∀ (j : Nat) r, s₀.requests[j]? = some r → r.phase = .start :=
    fun j r hj => hs r (List.mem_iff_getElem?.2 ⟨j, hj⟩)
  refine ⟨fun _ => rfl, rfl, fun j r hj => ?_, fun j r o n hj h => ?_,
    fun j r o n reply logged hj hp => ?_⟩
  · simp [hst j r hj]
  · rw [hst j r hj] at h; cases h
  · rw [hst j r hj] at hp; cases hp

/-- One section keeps the invariant, with its call appended to the interleaving. -/
theorem step (inv : LockInv s₀ order s) {s' : Server} (h : s.step i = some s') :
    LockInv s₀ (order ++ [i]) s' := by
  obtain ⟨r, hr, ⟨hst, rfl⟩ | ⟨o, n, hun, rfl⟩⟩ := Server.step_eq_some h
  · have hi : i ∉ order := (inv.start_iff i r hr).1 hst
    have hL : lockOrder (order ++ [i]) = lockOrder order ++ [i] := by
      rw [lockOrder_concat, if_neg (mt mem_lockOrder.1 hi)]
    have hm : (s₀.requests[i]?).map Request.method = some r.method := by
      rw [← inv.method_eq, hr]; rfl
    have hnew : statusAfter s₀ (lockOrder (order ++ [i])) s₀.api.fileOutputEnabled =
        newStatusOf r.method s.api.fileOutputEnabled := by
      rw [hL, statusAfter_concat, ← inv.api_eq]
      cases h0 : s₀.requests[i]? with
      | none => rw [h0] at hm; cases hm
      | some r₀ => rw [h0] at hm; exact congrArg (newStatusOf · _) (Option.some.inj hm)
    refine inv.set hr _ _ (fun h => by cases h) (.inr hL) hnew.symm ?_ fun _ _ _ _ hp => by cases hp
    rintro o n ⟨⟩
    exact ⟨lockOrder order, [], hL, inv.api_eq, rfl⟩
  · have hi : i ∈ order := by
      by_contra hi
      have := (inv.start_iff i r hr).2 hi
      rw [hun] at this; cases this
    have hL : lockOrder (order ++ [i]) = lockOrder order := by
      rw [lockOrder_concat, if_pos (mem_lockOrder.2 hi)]
    refine inv.set hr _ _ (fun h => by cases h) (.inl hL) (by rw [hL]; exact inv.api_eq) ?_ ?_
    · rintro o' n' ⟨⟩
      obtain ⟨A, B, hAB, ho, hn⟩ := inv.locked i r o n hr (by rw [hun]; rfl)
      exact ⟨A, B, hL.trans hAB, ho, hn⟩
    · rintro o' n' reply logged ⟨⟩
      have htake : (order ++ [i]).take (order.length + 1) = order ++ [i] :=
        List.take_of_length_le (by simp)
      refine ⟨order.length + 1, by simp, by simp [htake], ?_, ?_⟩ <;>
        rw [htake, hL, ← inv.api_eq]

end LockInv

/-- Along every interleaving of calls that have not started, the invariant holds: the locked
sections run one at a time, in the order the calls first run. -/
theorem Server.run_lockInv (s₀ : Server) (hs : ∀ r ∈ s₀.requests, r.phase = .start)
    {order : List Nat} {s : Server} (h : s₀.run order = some s) : LockInv s₀ order s := by
  induction order using List.reverseRecOn generalizing s with
  | nil => cases h; exact LockInv.init hs
  | append_singleton order i ih =>
    rw [Server.run_append] at h
    obtain ⟨s₁, h₁, h⟩ := Option.bind_eq_some.1 h
    obtain ⟨s₂, h₂, h⟩ := Option.bind_eq_some.1 h
    cases h
    exact (ih h₁).step h₂

/-- A `POST` whose reply is overtaken by a `DELETE`: the invariant holds all the same. -/
theorem run_lockInv_post_delete :
    (∀ r ∈ (⟨⟨false⟩, [⟨"POST", .start⟩, ⟨"DELETE", .start⟩]⟩ : Server).requests,
        r.phase = .start) ∧
      Server.run (⟨⟨false⟩, [⟨"POST", .start⟩, ⟨"DELETE", .start⟩]⟩ : Server) [0, 1, 0] =
        some ⟨⟨false⟩, [⟨"POST", .answered false true "File output is disabled\n"
                                  (some "File output is disabled")⟩,
                        ⟨"DELETE", .unlocked true false⟩]⟩ ∧
      LockInv (⟨⟨false⟩, [⟨"POST", .start⟩, ⟨"DELETE", .start⟩]⟩ : Server) [0, 1, 0]
        ⟨⟨false⟩, [⟨"POST", .answered false true "File output is disabled\n"
                                  (some "File output is disabled")⟩,
                        ⟨"DELETE", .unlocked true false⟩]⟩ :=
  have hs : ∀ r ∈ (⟨⟨false⟩, [⟨"POST", .start⟩, ⟨"DELETE", .start⟩]⟩ : Server).requests,
      r.phase = .start := by decide
  have h : Server.run (⟨⟨false⟩, [⟨"POST", .start⟩, ⟨"DELETE", .start⟩]⟩ : Server) [0, 1, 0] =
      some ⟨⟨false⟩, [⟨"POST", .answered false true "File output is disabled\n"
                                  (some "File output is disabled")⟩,
                        ⟨"DELETE", .unlocked true false⟩]⟩ := by decide
  ⟨hs, h, Server.run_lockInv _ hs h⟩

end CmdHelper

end BitflowCollector
