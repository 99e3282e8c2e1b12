import Mathlib.Data.List.Nodup

/-!
# The libvirt driver and the connection it keeps

`DriverImpl` keeps a URI, set by `Connect`, and at most one libvirt connection. `connection`
hands the kept connection out when `IsAlive` says it is alive; otherwise it `Close`s it, which
drops it whatever `Close` answers, and returns `Close`'s error if there is one. With no
connection kept, it opens one to the URI with `lib.NewConnect` and keeps it. `ListDomains` lists
the domains over the connection `connection` gives, and `Close` closes the kept connection.

Libvirt itself is outside the code: every driver method gets the answers libvirt gives to the
calls it makes (`Answers`), and reports the calls it made (`LibCall`). A run is any sequence of
`Connect`, `ListDomains` and `Close` with any answers (`run`).

* `connection` returns the connection the driver keeps afterwards, and when it fails the driver
  keeps none, so that the next call opens a new one (`connection_result`).
* From `NewDriver()`, over every run in which libvirt gives every new connection a handle of its
  own, the driver makes no call on a connection after it closed it, so none is closed twice, and
  the connection it keeps is never a closed one (`run_noUseAfterClose`).

`Connect` only sets the URI: a connection opened for an earlier URI stays in use while it is
alive.

## Main definitions

* `BitflowCollector.Libvirt.DriverImpl`, `BitflowCollector.Libvirt.newDriver`.
* `BitflowCollector.Libvirt.DriverImpl.connection`, `BitflowCollector.Libvirt.DriverImpl.close`,
  `BitflowCollector.Libvirt.DriverImpl.listDomains`, `BitflowCollector.Libvirt.run`.
* `BitflowCollector.Libvirt.NoUseAfterClose`: no call on a connection after its `Close`.

## Main results

* `BitflowCollector.Libvirt.DriverImpl.connection_result`.
* `BitflowCollector.Libvirt.run_noUseAfterClose`.
-/

namespace BitflowCollector

namespace Libvirt

/-- A libvirt connection, `*lib.Connect`, by the handle libvirt gave it. -/
structure Conn where
  handle : Nat
  deriving DecidableEq, Repr

/-- `DriverImpl`: the URI of `Connect` and the connection in use, `nil` as `none`. -/
structure DriverImpl where
  uri : String
  conn : Option Conn
  deriving DecidableEq, Repr

/-- `NewDriver()`: `new(DriverImpl)`, the zero value. -/
def newDriver : DriverImpl := ⟨"", none⟩

/-- `DomainImpl`: a libvirt domain, by its handle. -/
structure DomainImpl where
  domain : Nat
  deriving DecidableEq, Repr

/-- A call of the driver into libvirt, with the connection it is made on; a `NewConnect` with
the connection it opened, `none` when it failed. -/
inductive LibCall
  | isAlive (conn : Conn)
  | close (conn : Conn)
  | newConnect (uri : String) (conn : Option Conn)
  | listAllDomains (conn : Conn)
  deriving DecidableEq, Repr

/-- What libvirt answers to the calls of one driver method: `conn.IsAlive()` (an error, or
whether the connection is alive), `conn.Close()`, `lib.NewConnect(uri)` and
`conn.ListAllDomains(FETCH_DOMAINS_FLAGS)`. A method reads only the answers of the calls it
makes. -/
structure Answers where
  isAlive : Except String Bool
  close : Option String
  newConnect : Except String Conn
  listAllDomains : Except String (List Nat)

/-- What a driver method leaves: the driver, its result, and its calls into libvirt in order. -/
structure Outcome (α : Type) where
  driver : DriverImpl
  result : α
  calls : List LibCall

namespace DriverImpl

/-- `DriverImpl.Connect`. -/
def connect (d : DriverImpl) (uri : String) : Outcome (Option String) :=
  ⟨{ d with uri := uri }, none, []⟩

/-- `DriverImpl.Close`: the connection is dropped whatever `conn.Close()` answers. -/
def close (d : DriverImpl) (answer : Option String) : Outcome (Option String) :=
  match d.conn with
  | some conn => ⟨{ d with conn := none }, answer, [.close conn]⟩
  | none => ⟨d, none, []⟩

/-- The `conn == nil` branch of `DriverImpl.connection`: a new connection to the URI. -/
def dial (d : DriverImpl) (answer : Except String Conn) : Outcome (Except String Conn) :=
  if d.uri = "" then ⟨d, .error "Drier.Connect() has not yet been called.", []⟩
  else
    match answer with
    | .error err => ⟨d, .error err, [.newConnect d.uri none]⟩
    | .ok conn => ⟨{ d with conn := some conn }, .ok conn, [.newConnect d.uri (some conn)]⟩

/-- The `conn != nil` block of `DriverImpl.connection`: the kept connection when `IsAlive` says
it is alive; otherwise it is closed (the warning is not modelled) and `conn` is `nil`, unless
`Close` fails, which ends `connection` with its error. -/
def checkAlive (d : DriverImpl) (a : Answers) : Outcome (Except String (Option Conn)) :=
  match d.conn with
  | none => ⟨d, .ok none, []⟩
  | some conn =>
    match a.isAlive with
    | .ok true => ⟨d, .ok (some conn), [.isAlive conn]⟩
    | _ =>
      let closed := d.close a.close
      match closed.result with
      | some err => ⟨closed.driver, .error err, .isAlive conn :: closed.calls⟩
      | none => ⟨closed.driver, .ok none, .isAlive conn :: closed.calls⟩

/-- `DriverImpl.connection`: the connection of `checkAlive`, or with none a new one. -/
def connection (d : DriverImpl) (a : Answers) : Outcome (Except String Conn) :=
  let checked := d.checkAlive a
  match checked.result with
  | .error err => ⟨checked.driver, .error err, checked.calls⟩
  | .ok (some conn) => ⟨checked.driver, .ok conn, checked.calls⟩
  | .ok none =>
    let dialed := checked.driver.dial a.newConnect
    ⟨dialed.driver, dialed.result, checked.calls ++ dialed.calls⟩

/-- `DriverImpl.ListDomains`. -/
def listDomains (d : DriverImpl) (a : Answers) : Outcome (Except String (List DomainImpl)) :=
  let c := d.connection a
  match c.result with
  | .error err => ⟨c.driver, .error err, c.calls⟩
  | .ok conn =>
    ⟨c.driver, a.listAllDomains.map (List.map DomainImpl.mk), c.calls ++ [.listAllDomains conn]⟩

end DriverImpl

/-- The methods of the `Driver` interface that use the connection. -/
inductive Method
  | connect (uri : String)
  | listDomains
  | close
  deriving DecidableEq, Repr

/-- One method call: the driver after it and its calls into libvirt. -/
def Method.call (d : DriverImpl) (a : Answers) : Method → DriverImpl × List LibCall
  | .connect uri => ((d.connect uri).driver, (d.connect uri).calls)
  | .listDomains => ((d.listDomains a).driver, (d.listDomains a).calls)
  | .close => ((d.close a.close).driver, (d.close a.close).calls)

/-- A run of method calls, each with libvirt's answers: the driver at the end and every call
into libvirt, in order. -/
def run (d : DriverImpl) : List (Method × Answers) → DriverImpl × List LibCall
  | [] => (d, [])
  | (m, a) :: rest =>
    ((run (m.call d a).1 rest).1, (m.call d a).2 ++ (run (m.call d a).1 rest).2)

/-- The handles libvirt answers to the `NewConnect`s of a run. -/
def newConns (rs : List (Method × Answers)) : List Conn :=
  rs.filterMap fun r => r.2.newConnect.toOption

/-- The connection a call is made on, or that it opened. -/
def LibCall.conn : LibCall → Option Conn
  | .isAlive c | .close c | .listAllDomains c => some c
  | .newConnect _ c => c

/-- The connection a call closes. -/
def LibCall.closes : LibCall → Option Conn
  | .close c => some c
  | _ => none

/-- The connections the calls are made on. -/
def connsOf (calls : List LibCall) : List Conn := calls.filterMap LibCall.conn

/-- The connections the calls close. -/
def closedBy (calls : List LibCall) : List Conn := calls.filterMap LibCall.closes

/-- No call is made on a connection of `closed`, or on one that an earlier call closed. -/
def NoUseAfterClose : List Conn → List LibCall → Prop
  | _, [] => True
  | closed, e :: es =>
    (∀ c, e.conn = some c → c ∉ closed) ∧ NoUseAfterClose (closed ++ closedBy [e]) es

theorem connsOf_append (t t' : List LibCall) : connsOf (t ++ t') = connsOf t ++ connsOf t' :=
  List.filterMap_append t t' _

theorem closedBy_append (t t' : List LibCall) : closedBy (t ++ t') = closedBy t ++ closedBy t' :=
  List.filterMap_append t t' _

private theorem connsOf_singleton (e : LibCall) : connsOf [e] = e.conn.toList := by
  cases e with
  | newConnect _ c => cases c <;> rfl
  | _ => rfl

private theorem closedBy_singleton (e : LibCall) : closedBy [e] = e.closes.toList := by
  cases e <;> rfl

/-- A call that closes a connection is made on it. -/
theorem closedBy_subset (t : List LibCall) : closedBy t ⊆ connsOf t := by
  intro c hc
  obtain ⟨e, he, hclose⟩ := List.mem_filterMap.1 hc
  refine List.mem_filterMap.2 ⟨e, he, ?_⟩
  cases e <;> cases hclose
  rfl

theorem noUseAfterClose_append (closed : List Conn) (t t' : List LibCall) :
    NoUseAfterClose closed (t ++ t') ↔
      NoUseAfterClose closed t ∧ NoUseAfterClose (closed ++ closedBy t) t' := by
  induction t generalizing closed with
  | nil => simp only [List.nil_append, NoUseAfterClose, closedBy, List.filterMap_nil,
      List.append_nil, true_and]
  | cons e t ih =>
    rw [List.cons_append, NoUseAfterClose, NoUseAfterClose, ih, and_assoc, List.append_assoc,
      ← closedBy_append, List.singleton_append]

/-- Once a connection is closed, no later call is made on it. -/
theorem NoUseAfterClose.conn_ne {closed : List Conn} {post : List LibCall}
    (h : NoUseAfterClose closed post) {c : Conn} (hc : c ∈ closed) :
    ∀ e ∈ post, e.conn ≠ some c := by
  induction post generalizing closed with
  | nil => intro e he; cases he
  | cons e' post ih =>
    intro e he hec
    rcases List.mem_cons.1 he with rfl | he
    · exact h.1 c hec hc
    · exact ih h.2 (List.mem_append_left _ hc) e he hec

/-- The run so far made no call on a closed connection; the kept connection is one it made
calls on and did not close; and every connection it made calls on is one of `opened`. -/
structure Safe (conn : Option Conn) (trace : List LibCall) (opened : List Conn) : Prop where
  noUse : NoUseAfterClose [] trace
  not_closed : ∀ c, conn = some c → c ∉ closedBy trace
  mem_conns : ∀ c, conn = some c → c ∈ connsOf trace
  conns_opened : connsOf trace ⊆ opened

section Safe

variable {conn : Option Conn} {t : List LibCall} {opened : List Conn}

theorem Safe.mono (h : Safe conn t opened) (opened' : List Conn) :
    Safe conn t (opened ++ opened') :=
  ⟨h.noUse, h.not_closed, h.mem_conns, h.conns_opened.trans (List.subset_append_left _ _)⟩

/-- A call on the kept connection, or on none, that closes nothing. -/
theorem Safe.call (h : Safe conn t opened) (e : LibCall)
    (he : ∀ c, e.conn = some c → conn = some c) (hcl : e.closes = none) :
    Safe conn (t ++ [e]) opened := by
  have hclosed : closedBy (t ++ [e]) = closedBy t := by
    rw [closedBy_append, closedBy_singleton, hcl, Option.toList_none, List.append_nil]
  have hconns : ∀ c, c ∈ connsOf [e] → conn = some c := fun c hc => by
    rw [connsOf_singleton] at hc
    cases hce : e.conn with
    | none => rw [hce] at hc; cases hc
    | some c' => rw [hce, Option.toList_some, List.mem_singleton] at hc; exact hc ▸ he c' hce
  refine ⟨(noUseAfterClose_append _ _ _).2 ⟨h.noUse, fun c hc => ?_, trivial⟩,
    fun c hc => hclosed ▸ h.not_closed c hc,
    fun c hc => by rw [connsOf_append]; exact List.mem_append_left _ (h.mem_conns c hc), ?_⟩
  · rw [List.nil_append]
    exact h.not_closed c (he c hc)
  · rw [connsOf_append]
    exact List.append_subset.2 ⟨h.conns_opened,
      fun c hc => h.conns_opened (h.mem_conns c (hconns c hc))⟩

/-- `Close` of the kept connection. -/
theorem Safe.close {c : Conn} (h : Safe (some c) t opened) :
    Safe none (t ++ [.close c]) opened := by
  refine ⟨(noUseAfterClose_append _ _ _).2 ⟨h.noUse, ?_, trivial⟩,
    fun _ h => Option.noConfusion h, fun _ h => Option.noConfusion h, ?_⟩
  · rintro c' hc'
    cases hc'
    rw [List.nil_append]
    exact h.not_closed c rfl
  · rw [connsOf_append]
    exact List.append_subset.2 ⟨h.conns_opened,
      List.cons_subset.2 ⟨h.conns_opened (h.mem_conns c rfl), List.nil_subset _⟩⟩

/-- A `NewConnect` that opens a connection with a handle not seen before. -/
theorem Safe.newConnect {c : Conn} (h : Safe none t opened) (hc : c ∉ opened) (uri : String) :
    Safe (some c) (t ++ [.newConnect uri (some c)]) (opened ++ [c]) := by
  have hct : c ∉ connsOf t := fun h' => hc (h.conns_opened h')
  refine ⟨(noUseAfterClose_append _ _ _).2 ⟨h.noUse, ?_, trivial⟩, ?_, ?_, ?_⟩
  · rintro c' hc'
    cases hc'
    exact fun h' => hct (closedBy_subset t h')
  · rintro c' hc'
    cases hc'
    rw [closedBy_append]
    exact fun h' => (List.mem_append.1 h').elim (fun h' => hct (closedBy_subset t h')) nofun
  · rintro c' hc'
    cases hc'
    rw [connsOf_append]
    exact List.mem_append_right _ (List.mem_singleton_self c)
  · rw [connsOf_append]
    exact List.append_subset.2 ⟨h.conns_opened.trans (List.subset_append_left _ _),
      fun c' hc' => List.mem_append_right _ hc'⟩

end Safe

namespace DriverImpl

variable {t : List LibCall} {opened : List Conn}

/-- Everything `Close` can do. -/
theorem close_cases (d : DriverImpl) (answer : Option String) :
    d.conn = none ∧ d.close answer = ⟨d, none, []⟩ ∨
      ∃ c, d.conn = some c ∧
        d.close answer = ⟨{ d with conn := none }, answer, [.close c]⟩ := by
  unfold close
  cases d.conn with
  | none => exact .inl ⟨rfl, rfl⟩
  | some c => exact .inr ⟨c, rfl, rfl⟩

/-- Everything `dial` can do. -/
theorem dial_cases (d : DriverImpl) (answer : Except String Conn) :
    (∃ err, d.dial answer = ⟨d, .error err, []⟩) ∨
      (∃ err, answer = .error err ∧
        d.dial answer = ⟨d, .error err, [.newConnect d.uri none]⟩) ∨
      ∃ c, answer = .ok c ∧
        d.dial answer = ⟨{ d with conn := some c }, .ok c, [.newConnect d.uri (some c)]⟩ := by
  unfold dial
  split_ifs
  · exact .inl ⟨_, rfl⟩
  · cases answer with
    | error err => exact .inr (.inl ⟨err, rfl, rfl⟩)
    | ok c => exact .inr (.inr ⟨c, rfl, rfl⟩)

/-- Everything `checkAlive` can do: nothing without a connection; with one, either hand it out
after `IsAlive`, or close it and be left with none. -/
theorem checkAlive_cases (d : DriverImpl) (a : Answers) :
    d.conn = none ∧ d.checkAlive a = ⟨d, .ok none, []⟩ ∨
      (∃ c, d.conn = some c ∧ d.checkAlive a = ⟨d, .ok (some c), [.isAlive c]⟩) ∨
      ∃ c, d.conn = some c ∧ (d.checkAlive a).driver = { d with conn := none } ∧
        (d.checkAlive a).calls = [.isAlive c, .close c] ∧
        ((d.checkAlive a).result = .ok none ∨ ∃ err, (d.checkAlive a).result = .error err) := by
  rcases d.close_cases a.close with ⟨hc, -⟩ | ⟨c, hc, hclose⟩
  · exact .inl ⟨hc, by rw [checkAlive, hc]⟩
  · unfold checkAlive
    rw [hclose, hc]
    rcases a.isAlive with _ | _ | _
    all_goals first
      | exact .inr (.inl ⟨c, rfl, rfl⟩)
      | cases a.close
        · exact .inr (.inr ⟨c, rfl, rfl, rfl, .inl rfl⟩)
        · exact .inr (.inr ⟨c, rfl, rfl, rfl, .inr ⟨_, rfl⟩⟩)

theorem dial_result (d : DriverImpl) (answer : Except String Conn) :
    (∀ c, (d.dial answer).result = .ok c → (d.dial answer).driver.conn = some c) ∧
      ∀ err, (d.dial answer).result = .error err → (d.dial answer).driver.conn = d.conn := by
  rcases d.dial_cases answer with ⟨_, hd⟩ | ⟨_, -, hd⟩ | ⟨c, -, hd⟩ <;> rw [hd]
  · exact ⟨fun _ h => Except.noConfusion h, fun _ _ => rfl⟩
  · exact ⟨fun _ h => Except.noConfusion h, fun _ _ => rfl⟩
  · exact ⟨fun _ h => by cases h; rfl, fun _ h => Except.noConfusion h⟩

/-- `connection` returns the connection the driver keeps afterwards; when it fails the driver
keeps none, whatever libvirt answered, so that the next call opens a new connection. -/
theorem connection_result (d : DriverImpl) (a : Answers) :
    (∀ c, (d.connection a).result = .ok c → (d.connection a).driver.conn = some c) ∧
      ∀ err, (d.connection a).result = .error err → (d.connection a).driver.conn = none := by
  dsimp only [connection]
  rcases d.checkAlive_cases a with ⟨hn, hd⟩ | ⟨c, hc, hd⟩ |
    ⟨c, hc, hdrv, hcalls, hres | ⟨err, hres⟩⟩
  · rw [hd]
    obtain ⟨hok, herr⟩ := d.dial_result a.newConnect
    exact ⟨hok, fun err h => (herr err h).trans hn⟩
  · rw [hd]
    exact ⟨fun _ h => by cases h; exact hc, fun _ h => Except.noConfusion h⟩
  · rw [hres]
    obtain ⟨hok, herr⟩ := (d.checkAlive a).driver.dial_result a.newConnect
    exact ⟨hok, fun err h => (herr err h).trans (by rw [hdrv])⟩
  · rw [hres]
    exact ⟨fun _ h => Except.noConfusion h, fun _ _ => by rw [hdrv]⟩

theorem safe_close (d : DriverImpl) (h : Safe d.conn t opened) (answer : Option String) :
    Safe (d.close answer).driver.conn (t ++ (d.close answer).calls) opened := by
  rcases d.close_cases answer with ⟨-, hd⟩ | ⟨c, hc, hd⟩ <;> rw [hd]
  · rw [List.append_nil]
    exact h
  · exact (hc ▸ h).close

/-- A new connection, with a handle not among `opened`, keeps the run safe. -/
theorem safe_dial (d : DriverImpl) (hn : d.conn = none) (h : Safe none t opened)
    (answer : Except String Conn) (hfresh : ∀ c, answer = .ok c → c ∉ opened) :
    Safe (d.dial answer).driver.conn (t ++ (d.dial answer).calls)
      (opened ++ answer.toOption.toList) := by
  rcases d.dial_cases answer with ⟨_, hd⟩ | ⟨_, rfl, hd⟩ | ⟨c, rfl, hd⟩ <;> rw [hd] <;>
    dsimp only
  · rw [hn, List.append_nil]
    exact h.mono _
  · rw [hn]
    exact (h.call (.newConnect d.uri none) (fun _ h => Option.noConfusion h) rfl).mono _
  · exact h.newConnect (hfresh c rfl) d.uri

theorem safe_connection (d : DriverImpl) (h : Safe d.conn t opened) (a : Answers)
    (hfresh : ∀ c, a.newConnect = .ok c → c ∉ opened) :
    Safe (d.connection a).driver.conn (t ++ (d.connection a).calls)
      (opened ++ a.newConnect.toOption.toList) := by
  dsimp only [connection]
  rcases d.checkAlive_cases a with ⟨hn, hd⟩ | ⟨c, hc, hd⟩ |
    ⟨c, hc, hdrv, hcalls, hres | ⟨err, hres⟩⟩
  · rw [hd, List.nil_append]
    exact d.safe_dial hn (hn ▸ h) a.newConnect hfresh
  · rw [hd]
    exact (h.call (.isAlive c) (fun _ h' => hc.trans h') rfl).mono _
  all_goals
    have hclosed : Safe none (t ++ (d.checkAlive a).calls) opened := by
      rw [hcalls, ← List.singleton_append, ← List.append_assoc]
      exact ((hc ▸ h).call (.isAlive c) (fun _ h' => h') rfl).close
    rw [hres]
  · rw [← List.append_assoc]
    exact (d.checkAlive a).driver.safe_dial (by rw [hdrv]) hclosed a.newConnect hfresh
  · rw [hdrv]
    exact hclosed.mono _

theorem safe_listDomains (d : DriverImpl) (h : Safe d.conn t opened) (a : Answers)
    (hfresh : ∀ c, a.newConnect = .ok c → c ∉ opened) :
    Safe (d.listDomains a).driver.conn (t ++ (d.listDomains a).calls)
      (opened ++ a.newConnect.toOption.toList) := by
  have hc := d.safe_connection h a hfresh
  dsimp only [listDomains]
  cases hr : (d.connection a).result with
  | error err => exact hc
  | ok conn =>
    rw [← List.append_assoc]
    exact hc.call (.listAllDomains conn)
      (fun _ h' => ((d.connection_result a).1 conn hr).trans h') rfl

end DriverImpl

/-- Every method call keeps the run safe when libvirt's new handle is not among `opened`. -/
theorem Method.safe_call (m : Method) {d : DriverImpl} {t : List LibCall} {opened : List Conn}
    (h : Safe d.conn t opened) (a : Answers)
    (hfresh : ∀ c, a.newConnect = .ok c → c ∉ opened) :
    Safe (m.call d a).1.conn (t ++ (m.call d a).2) (opened ++ a.newConnect.toOption.toList) := by
  cases m with
  | connect uri =>
    show Safe d.conn (t ++ []) _
    rw [List.append_nil]
    exact h.mono _
  | listDomains => exact d.safe_listDomains h a hfresh
  | close => exact (d.safe_close h a.close).mono _

private theorem newConns_cons (m : Method) (a : Answers) (rs : List (Method × Answers)) :
    newConns ((m, a) :: rs) = a.newConnect.toOption.toList ++ newConns rs := by
  simp only [newConns, List.filterMap_cons]
  cases a.newConnect.toOption <;> rfl

/-- Over a run whose new handles are distinct and not among `opened`, the run stays safe. -/
theorem safe_run (d : DriverImpl) {t : List LibCall} {opened : List Conn} (h : Safe d.conn t opened)
    (rs : List (Method × Answers)) (hnodup : (newConns rs).Nodup)
    (hfresh : ∀ c ∈ newConns rs, c ∉ opened) :
    Safe (run d rs).1.conn (t ++ (run d rs).2) (opened ++ newConns rs) := by
  induction rs generalizing d t opened with
  | nil =>
    rw [run, newConns, List.filterMap_nil, List.append_nil, List.append_nil]
    exact h
  | cons r rs ih =>
    obtain ⟨m, a⟩ := r
    rw [newConns_cons] at hnodup hfresh ⊢
    have h₁ := m.safe_call h a fun c hc =>
      hfresh c (List.mem_append_left _ (by rw [hc]; exact List.mem_singleton_self c))
    have := ih _ h₁ (List.nodup_append.1 hnodup).2.1 fun c hc hc' =>
      (List.mem_append.1 hc').elim (hfresh c (List.mem_append_right _ hc))
        fun hc' => (List.nodup_append.1 hnodup).2.2 hc' hc
    rw [run, ← List.append_assoc, ← List.append_assoc]
    exact this

/-- From `NewDriver()`, over every run of `Connect`, `ListDomains` and `Close` with any answers
of libvirt that give each new connection a handle of its own, the driver makes no call on a
connection after closing it (in particular it closes none twice), and the connection it keeps
at the end is not a closed one. -/
theorem run_noUseAfterClose (rs : List (Method × Answers)) (hfresh : (newConns rs).Nodup) :
    (∀ pre c post, (run newDriver rs).2 = pre ++ .close c :: post →
        ∀ e ∈ post, e.conn ≠ some c) ∧
      ∀ c, (run newDriver rs).1.conn = some c → LibCall.close c ∉ (run newDriver rs).2 := by
  have h := safe_run newDriver (⟨trivial, fun _ h => Option.noConfusion h,
    fun _ h => Option.noConfusion h, List.nil_subset _⟩ : Safe none [] []) rs hfresh
    (fun c _ => List.not_mem_nil c)
  rw [List.nil_append] at h
  refine ⟨fun pre c post hsplit => ?_, fun c hc hmem => h.not_closed c hc
    (List.mem_filterMap.2 ⟨_, hmem, rfl⟩)⟩
  have hpost := ((noUseAfterClose_append [] pre (.close c :: post)).1 (hsplit ▸ h.noUse)).2.2
  exact hpost.conn_ne (List.mem_append_right _ (List.mem_singleton_self c))

/-- `Connect`, a `ListDomains` that opens connection 1, and a `ListDomains` whose alive check
fails, so that connection 1 is closed and connection 2 opened. -/
theorem run_noUseAfterClose_reconnect :
    (newConns [(.connect "qemu:///system", ⟨.ok true, none, .error "", .ok []⟩),
        (.listDomains, ⟨.ok true, none, .ok ⟨1⟩, .ok [7]⟩),
        (.listDomains, ⟨.ok false, none, .ok ⟨2⟩, .ok [7]⟩)]).Nodup ∧
      (∀ pre c post, (run newDriver
          [(.connect "qemu:///system", ⟨.ok true, none, .error "", .ok []⟩),
            (.listDomains, ⟨.ok true, none, .ok ⟨1⟩, .ok [7]⟩),
            (.listDomains, ⟨.ok false, none, .ok ⟨2⟩, .ok [7]⟩)]).2 =
          pre ++ .close c :: post →
        ∀ e ∈ post, e.conn ≠ some c) ∧
      ∀ c, (run newDriver [(.connect "qemu:///system", ⟨.ok true, none, .error "", .ok []⟩),
          (.listDomains, ⟨.ok true, none, .ok ⟨1⟩, .ok [7]⟩),
          (.listDomains, ⟨.ok false, none, .ok ⟨2⟩, .ok [7]⟩)]).1.conn = some c →
        LibCall.close c ∉ (run newDriver
          [(.connect "qemu:///system", ⟨.ok true, none, .error "", .ok []⟩),
            (.listDomains, ⟨.ok true, none, .ok ⟨1⟩, .ok [7]⟩),
            (.listDomains, ⟨.ok false, none, .ok ⟨2⟩, .ok [7]⟩)]).2 :=
  ⟨by decide, run_noUseAfterClose _ (by decide)⟩

end Libvirt

end BitflowCollector
