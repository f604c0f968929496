import Mathlib.Data.List.Basic

/-!
# Several sessions acting as one

A scope of a composite is a scope of each of its delegates, one inside the other. What a session
and its server answer may hang on all that happened before, so the answers are functions of the
past; what a body does to it is the body's own.
-/

namespace AsceticDdd.Session

/-- The driver's errors are the parameter. -/
inductive SessionError (ν : Type)
  | scopeAlreadyOpen
  | abandoned
  | begin (error : ν)
  | commit (error : ν)
  | aborted (cause : Option ν)
deriving DecidableEq

namespace Composite

/-- A scope was opened on a session, or closed; or a body did some work. -/
inductive Event (σ β : Type)
  | opened (session : σ)
  | committed (session : σ)
  | rolledBack (session : σ)
  | did (work : β)
deriving DecidableEq

abbrev Past (σ β : Type) := List (Event σ β)

/-- A future run to its end: what it returns, and the past it leaves. -/
abbrev Run (σ β ε τ : Type) := Past σ β → Except ε τ × Past σ β

/-- What a session hands to its scopes, whether it lets one open, and whether it commits it. -/
structure Adapter (σ β ν : Type) where
  child : σ → σ
  admits : σ → Past σ β → Except (SessionError ν) Unit
  commit : σ → Past σ β → Except (SessionError ν) Unit

variable {σ β ν ε τ : Type}

/-- What decides a scope of a `PgSession`: its flag, whether its connection is poisoned, and the
server's answers to the opening and to the closing statement. -/
structure Postgres (σ β ν : Type) where
  child : σ → σ
  claimed : σ → Past σ β → Bool
  poisoned : σ → Past σ β → Bool
  opening : σ → Past σ β → Except ν Unit
  closing : σ → Past σ β → Except (SessionError ν) Unit

def Postgres.adapter (pg : Postgres σ β ν) : Adapter σ β ν where
  child := pg.child
  admits session past :=
    if pg.claimed session past then .error .scopeAlreadyOpen
    else if pg.poisoned session past then .error .abandoned
    else (pg.opening session past).mapError .begin
  -- a nested scope dropped on its way: nothing done since may be committed
  commit session past :=
    if pg.poisoned session past then .error .abandoned else pg.closing session past

/-- A `RestSession` has nothing to open and nothing to commit. -/
structure Rest (σ β : Type) where
  child : σ → σ
  claimed : σ → Past σ β → Bool

def Rest.adapter (rest : Rest σ β) : Adapter σ β ν where
  child := rest.child
  admits session past := if rest.claimed session past then .error .scopeAlreadyOpen else .ok ()
  commit _ _ := .ok ()

/-- A `MemorySession`, whose journal takes every statement. -/
structure Memory (σ β : Type) where
  child : σ → σ
  claimed : σ → Past σ β → Bool
  abandoned : σ → Past σ β → Bool

def Memory.adapter (memory : Memory σ β) : Adapter σ β ν where
  child := memory.child
  admits session past :=
    if memory.claimed session past then .error .scopeAlreadyOpen
    else if memory.abandoned session past then .error .abandoned
    else .ok ()
  commit session past := if memory.abandoned session past then .error .abandoned else .ok ()

section

variable (A : Adapter σ β ν) (carry : SessionError ν → ε)

/-- The scope has returned: it is committed, or rolled back if it failed or its commit is refused. -/
def Adapter.close (session : σ) : Except ε τ × Past σ β → Except ε τ × Past σ β
  | (.error error, later) => (.error error, later ++ [.rolledBack session])
  | (.ok value, later) =>
    match A.commit session later with
    | .error error => (.error (carry error), later ++ [.rolledBack session])
    | .ok () => (.ok value, later ++ [.committed session])

/-- `atomic` of a session. -/
def Adapter.atomic (session : σ) (scope : σ → Run σ β ε τ) : Run σ β ε τ := fun past =>
  match A.admits session past with
  | .error error => (.error (carry error), past)
  | .ok () => A.close carry session (scope (A.child session) (past ++ [.opened session]))

end

end Composite

/-- A session, a `CompositeSession` of two, a tuple of them or a `Many`, nested in any way. -/
inductive Composite (σ : Type)
  | single (session : σ)
  | pair (first second : Composite σ)
  | tuple (delegates : List (Composite σ))
  | many (delegates : List (Composite σ))

namespace Composite

variable {σ β ν ε τ : Type} (A : Adapter σ β ν) (carry : SessionError ν → ε)

mutual

def atomic : Composite σ → (Composite σ → Run σ β ε τ) → Run σ β ε τ
  | .single session, scope => A.atomic carry session fun opened => scope (.single opened)
  | .pair first second, scope =>
    atomic first fun first => atomic second fun second => scope (.pair first second)
  | .tuple delegates, scope => openScopes delegates [] fun sessions => scope (.tuple sessions)
  | .many delegates, scope => openScopes delegates [] fun opened => scope (.many opened)

def openScopes : List (Composite σ) → List (Composite σ) → (List (Composite σ) → Run σ β ε τ) →
    Run σ β ε τ
  | [], opened, scope => scope opened
  | head :: tail, opened, scope =>
    atomic head fun openedHead => openScopes tail (opened ++ [openedHead]) scope

end

mutual

/-- The sessions of a composite, in the order of its delegates. -/
def sessions : Composite σ → List σ
  | .single session => [session]
  | .pair first second => sessions first ++ sessions second
  | .tuple delegates | .many delegates => sessionsAll delegates

def sessionsAll : List (Composite σ) → List σ
  | [] => []
  | head :: tail => sessions head ++ sessionsAll tail

end

mutual

/-- The composite of the same shape over the sessions that were opened. -/
def opened : Composite σ → Composite σ
  | .single session => .single (A.child session)
  | .pair first second => .pair (opened first) (opened second)
  | .tuple delegates => .tuple (openedAll delegates)
  | .many delegates => .many (openedAll delegates)

def openedAll : List (Composite σ) → List (Composite σ)
  | [] => []
  | head :: tail => opened head :: openedAll tail

end

/-- A scope of each session, one inside the other. -/
def inTurn (body : Run σ β ε τ) : List σ → Run σ β ε τ
  | [] => body
  | session :: rest => A.atomic carry session fun _ => inTurn body rest

variable {A carry}

theorem inTurn_append (body : Run σ β ε τ) (front back : List σ) :
    inTurn A carry body (front ++ back) = inTurn A carry (inTurn A carry body back) front := by
  induction front with
  | nil => rfl
  | cons session rest ih => rw [List.cons_append, inTurn, ih, inTurn]

theorem atomic_single (session : σ) (scope : σ → Run σ β ε τ) :
    A.atomic carry session scope = inTurn A carry (scope (A.child session)) [session] := rfl

mutual

/-- Whatever its shape, a composite opens the scopes of its sessions in turn, and hands the opened
ones to its scope. -/
theorem atomic_eq : ∀ (composite : Composite σ) (scope : Composite σ → Run σ β ε τ),
    atomic A carry composite scope = inTurn A carry (scope (opened A composite)) (sessions composite)
  | .single session, scope => by
    rw [atomic, atomic_single, opened, sessions]
  | .pair first second, scope => by
    rw [atomic, atomic_eq first, atomic_eq second, ← inTurn_append, opened, sessions]
  | .tuple delegates, scope => by
    rw [atomic, openScopes_eq delegates, List.nil_append, opened, sessions]
  | .many delegates, scope => by
    rw [atomic, openScopes_eq delegates, List.nil_append, opened, sessions]

theorem openScopes_eq : ∀ (delegates before : List (Composite σ))
    (scope : List (Composite σ) → Run σ β ε τ),
    openScopes A carry delegates before scope =
      inTurn A carry (scope (before ++ openedAll A delegates)) (sessionsAll delegates)
  | [], before, scope => by
    rw [openScopes, openedAll, sessionsAll, List.append_nil, inTurn]
  | head :: tail, before, scope => by
    rw [openScopes, atomic_eq head, openScopes_eq tail, ← inTurn_append, openedAll, sessionsAll,
      List.append_assoc, List.singleton_append]

end

section

variable (A)

/-- Each session lets its scope open, once those before it have. -/
def Opens (past : Past σ β) (sessions : List σ) : Prop :=
  ∀ before session after, sessions = before ++ session :: after →
    A.admits session (past ++ before.map .opened) = .ok ()

/-- Each session commits, once those after it have. -/
def Commits (past : Past σ β) (sessions : List σ) : Prop :=
  ∀ before session after, sessions = before ++ session :: after →
    A.commit session (past ++ after.reverse.map .committed) = .ok ()

variable (carry)

/-- How a scope over the sessions ends, and what it leaves: those that opened are closed in reverse,
each once, and what is committed is a suffix. -/
inductive Closes (past : Past σ β) (sessions : List σ) (body : Run σ β ε τ) : Except ε τ × Past σ β → Prop
  | refused {before session after error} : sessions = before ++ session :: after →
      Opens A past before → A.admits session (past ++ before.map .opened) = .error error →
      Closes past sessions body
        (.error (carry error), past ++ before.map .opened ++ before.reverse.map .rolledBack)
  | failed {error later} : Opens A past sessions →
      body (past ++ sessions.map .opened) = (.error error, later) →
      Closes past sessions body (.error error, later ++ sessions.reverse.map .rolledBack)
  | committed {value later} : Opens A past sessions →
      body (past ++ sessions.map .opened) = (.ok value, later) → Commits A later sessions →
      Closes past sessions body (.ok value, later ++ sessions.reverse.map .committed)
  | notCommitted {before session after value later error} : sessions = before ++ session :: after →
      Opens A past sessions → body (past ++ sessions.map .opened) = (.ok value, later) →
      Commits A later after →
      A.commit session (later ++ after.reverse.map .committed) = .error error →
      Closes past sessions body (.error (carry error),
        later ++ after.reverse.map .committed ++ (session :: before.reverse).map .rolledBack)

end

variable {past : Past σ β} {session : σ} {rest : List σ} {body : Run σ β ε τ}

theorem Opens.cons (hfirst : A.admits session past = .ok ()) (hrest : Opens A (past ++ [.opened session]) rest) :
    Opens A past (session :: rest) := by
  intro before next after h
  cases before with
  | nil =>
    obtain ⟨rfl, -⟩ := List.cons.inj h
    rw [List.map_nil, List.append_nil]
    exact hfirst
  | cons first before =>
    obtain ⟨rfl, hrest'⟩ := List.cons.inj h
    have hnext := hrest before next after hrest'
    rwa [List.append_assoc, List.singleton_append, ← List.map_cons] at hnext

theorem opens_nil : Opens A past [] := fun before session after h => by simp at h

theorem commits_nil : Commits A past [] := fun before session after h => by simp at h

theorem Commits.cons (hrest : Commits A past rest)
    (hfirst : A.commit session (past ++ rest.reverse.map .committed) = .ok ()) :
    Commits A past (session :: rest) := by
  intro before next after h
  cases before with
  | nil =>
    obtain ⟨rfl, rfl⟩ := List.cons.inj h
    exact hfirst
  | cons first before =>
    obtain ⟨rfl, hrest'⟩ := List.cons.inj h
    exact hrest before next after hrest'

/-- One more session around those that already close so. -/
theorem Closes.cons {result : Except ε τ × Past σ β} (hopen : A.admits session past = .ok ())
    (h : Closes A carry (past ++ [.opened session]) rest body result) :
    Closes A carry past (session :: rest) body (A.close carry session result) := by
  cases h with
  | @refused before next after error hsessions hopens hrefused =>
    rw [List.append_assoc, List.singleton_append, ← List.map_cons] at hrefused
    have hsessions' : session :: rest = (session :: before) ++ next :: after := congrArg (session :: ·) hsessions
    have hclosed : Closes A carry past (session :: rest) body _ :=
      .refused hsessions' (hopens.cons hopen) hrefused
    simpa [Adapter.close] using hclosed
  | @failed error later hopens hbody =>
    rw [List.append_assoc, List.singleton_append, ← List.map_cons] at hbody
    have hclosed : Closes A carry past (session :: rest) body _ := .failed (hopens.cons hopen) hbody
    simpa [Adapter.close] using hclosed
  | @committed value later hopens hbody hcommits =>
    rw [List.append_assoc, List.singleton_append, ← List.map_cons] at hbody
    match hcommit : A.commit session (later ++ rest.reverse.map .committed) with
    | .error error =>
      rw [Adapter.close, hcommit]
      have hsessions : session :: rest = [] ++ session :: rest := rfl
      exact .notCommitted hsessions (hopens.cons hopen) hbody hcommits hcommit
    | .ok () =>
      have hclosed : Closes A carry past (session :: rest) body _ :=
        .committed (hopens.cons hopen) hbody (hcommits.cons hcommit)
      rw [Adapter.close, hcommit]
      simpa using hclosed
  | @notCommitted before next after value later error hsessions hopens hbody hcommits hrefused =>
    rw [List.append_assoc, List.singleton_append, ← List.map_cons] at hbody
    have hsessions' : session :: rest = (session :: before) ++ next :: after := congrArg (session :: ·) hsessions
    have hclosed : Closes A carry past (session :: rest) body _ :=
      .notCommitted hsessions' (hopens.cons hopen) hbody hcommits hrefused
    simpa [Adapter.close] using hclosed

theorem inTurn_closes (sessions : List σ) (past : Past σ β) (body : Run σ β ε τ) :
    Closes A carry past sessions body (inTurn A carry body sessions past) := by
  induction sessions generalizing past with
  | nil =>
    rw [inTurn]
    match h : body past with
    | (.error error, later) =>
      have hbody : body (past ++ [].map .opened) = (.error error, later) := by
        rw [List.map_nil, List.append_nil, h]
      have hclosed : Closes A carry past [] body _ := .failed opens_nil hbody
      rwa [List.reverse_nil, List.map_nil, List.append_nil] at hclosed
    | (.ok value, later) =>
      have hbody : body (past ++ [].map .opened) = (.ok value, later) := by
        rw [List.map_nil, List.append_nil, h]
      have hclosed : Closes A carry past [] body _ := .committed opens_nil hbody commits_nil
      rwa [List.reverse_nil, List.map_nil, List.append_nil] at hclosed
  | cons session rest ih =>
    rw [inTurn, Adapter.atomic]
    split
    · rename_i error hrefused
      have hsessions : session :: rest = [] ++ session :: rest := rfl
      have hadmits : A.admits session (past ++ [].map .opened) = .error error := by
        rw [List.map_nil, List.append_nil, hrefused]
      have hclosed : Closes A carry past (session :: rest) body _ := .refused hsessions opens_nil hadmits
      simpa using hclosed
    · rename_i hopen
      exact (ih (past ++ [.opened session])).cons hopen

mutual

theorem sessions_opened : ∀ composite : Composite σ,
    sessions (opened A composite) = (sessions composite).map A.child
  | .single session => rfl
  | .pair first second => by
    rw [opened, sessions, sessions, List.map_append, sessions_opened first, sessions_opened second]
  | .tuple delegates => sessionsAll_openedAll delegates
  | .many delegates => sessionsAll_openedAll delegates

theorem sessionsAll_openedAll : ∀ delegates : List (Composite σ),
    sessionsAll (openedAll A delegates) = (sessionsAll delegates).map A.child
  | [] => rfl
  | head :: tail => by
    rw [openedAll, sessionsAll, sessionsAll, List.map_append, sessions_opened head,
      sessionsAll_openedAll tail]

end

/-- The delegates one in another, as pairs. -/
def pairs (first : Composite σ) : List (Composite σ) → Composite σ
  | [] => first
  | second :: rest => .pair first (pairs second rest)

/-- The delegates of so many pairs one in another. -/
def delegates : Nat → Composite σ → List (Composite σ)
  | 0, composite => [composite]
  | n + 1, .pair first second => first :: delegates n second
  | _ + 1, composite => [composite]

theorem sessions_pairs (first : Composite σ) (rest : List (Composite σ)) :
    sessions (pairs first rest) = sessionsAll (first :: rest) := by
  induction rest generalizing first with
  | nil => rw [pairs, sessionsAll, sessionsAll, List.append_nil]
  | cons second rest ih => rw [pairs, sessions, ih, ← sessionsAll]

theorem delegates_pairs (first : Composite σ) (rest : List (Composite σ)) :
    delegates rest.length (opened A (pairs first rest)) = openedAll A (first :: rest) := by
  induction rest generalizing first with
  | nil => rw [pairs, List.length_nil, delegates, openedAll, openedAll]
  | cons second rest ih => rw [pairs, opened, List.length_cons, delegates, ih, ← openedAll]

/-- A composite commits a suffix of its sessions, whatever its shape, and hands the opened sessions
on in their order; and a Many behaves as its delegates nested in pairs. -/
theorem commits_suffix (A : Adapter σ β ν) (carry : SessionError ν → ε) :
    (∀ (composite : Composite σ) (scope : Composite σ → Run σ β ε τ) (past : Past σ β),
      Closes A carry past (sessions composite) (scope (opened A composite))
        (atomic A carry composite scope past)) ∧
    (∀ composite : Composite σ, sessions (opened A composite) = (sessions composite).map A.child) ∧
    (∀ scope : Composite σ → Run σ β ε τ, atomic A carry (.many []) scope = scope (.many [])) ∧
    ∀ (first : Composite σ) (rest : List (Composite σ)) (scope : Composite σ → Run σ β ε τ),
      atomic A carry (.many (first :: rest)) scope =
        atomic A carry (pairs first rest) fun opened => scope (.many (delegates rest.length opened)) := by
  refine ⟨fun composite scope past => ?_, sessions_opened, fun scope => rfl, fun first rest scope => ?_⟩
  · rw [atomic_eq]
    exact inTurn_closes _ _ _
  · rw [atomic_eq, atomic_eq, delegates_pairs, sessions_pairs, opened, sessions]

/-- Three connections, of which the second refuses to commit. -/
def refusing : Postgres Nat Unit String where
  child := id
  claimed _ _ := false
  poisoned _ _ := false
  opening _ _ := .ok ()
  closing session _ := if session = 1 then .error (.commit "could not serialize access") else .ok ()

example :
    atomic refusing.adapter id (.many [.single 0, .single 1, .single 2]) (fun _ past => (.ok (), past)) [] =
      (.error (.commit "could not serialize access"),
        [.opened 0, .opened 1, .opened 2, .committed 2, .rolledBack 1, .rolledBack 0]) := rfl

end Composite

end AsceticDdd.Session
