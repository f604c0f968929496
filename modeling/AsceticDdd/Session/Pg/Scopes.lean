import Mathlib.Data.List.Chain
import Mathlib.Data.List.Nodup

/-!
# Scopes on one connection

Sessions are handles: whoever has one may call `atomic` on it, from any task and at any time, also
after the scope that was given it has ended. The flag that a call claims belongs to the session, and
clones share it; so a session is known by the scope that was given it.
-/

namespace AsceticDdd.Session.Pg

/-- A session of the connection: the one from the pool, or the one a scope was given. -/
structure PgSession where
  owner : Option Nat
  depth : Nat
deriving DecidableEq

/-- The session the pool hands out. -/
def PgSession.acquired : PgSession := ⟨none, 0⟩

/-- A call of `atomic`, and the savepoint it drew. -/
structure Scope where
  id : Nat
  opener : PgSession
  savepoint : Option Nat
deriving DecidableEq

/-- The session the scope is given. -/
def Scope.child (scope : Scope) : PgSession := ⟨some scope.id, scope.opener.depth + 1⟩

inductive Statement
  | begin
  | savepoint (name : Nat)
  | commit
  | release (name : Nat)
  | rollback
  | rollbackTo (name : Nat)
deriving DecidableEq

def Scope.openStatement (scope : Scope) : Statement := scope.savepoint.elim .begin .savepoint

def Scope.commitStatement (scope : Scope) : Statement := scope.savepoint.elim .commit .release

def Scope.rollBackStatement (scope : Scope) : Statement := scope.savepoint.elim .rollback .rollbackTo

/-- What an open scope waits for, or has been answered. -/
inductive Phase
  | opening
  | running
  | returned (ok : Bool)
  | committing
  | rollingBack
deriving DecidableEq

/-- A connection: the flags that are set, the sessions handed out, and the calls of `atomic` that
are claimed, that were admitted and named, and that have sent their opening statement. -/
structure World where
  flags : List (Option Nat)
  handed : List PgSession
  poisoned : Bool
  calls : Nat
  savepoints : Nat
  claimed : List Scope
  admitted : List Scope
  opened : List Scope
  phase : Nat → Phase

inductive Action
  /-- `atomic` is called on a session: its flag is claimed. -/
  | call (session : PgSession)
  /-- Whether the connection is poisoned is read, and the savepoint named. -/
  | admitScope (id : Nat)
  | send (id : Nat)
  /-- The server answers the statement that the scope waits for. -/
  | answer (id : Nat) (ok : Bool)
  /-- The scope's body returns, and whether the connection is poisoned is read. -/
  | ret (id : Nat) (ok : Bool)
  | close (id : Nat)
  /-- The scope's future is dropped where it waits. -/
  | drop (id : Nat)
deriving DecidableEq

inductive Event
  | silent
  | refused
  | sent (statement : Statement)
deriving DecidableEq

namespace World

def start : World where
  flags := []
  handed := [.acquired]
  poisoned := false
  calls := 0
  savepoints := 0
  claimed := []
  admitted := []
  opened := []
  phase _ := .opening

/-- The guard is dropped. -/
def unflag (w : World) (scope : Scope) : World :=
  { w with flags := w.flags.filter (· ≠ scope.opener.owner) }

/-- The scope is over. -/
def leave (w : World) (scope : Scope) : World :=
  { w.unflag scope with opened := w.opened.erase scope }

def setPhase (w : World) (id : Nat) (phase : Phase) : World :=
  { w with phase := Function.update w.phase id phase }

def call (w : World) (session : PgSession) : World × Event :=
  if session.owner ∈ w.flags then (w, .refused)
  else
    ({ w with
      flags := session.owner :: w.flags
      calls := w.calls + 1
      claimed := ⟨w.calls, session, none⟩ :: w.claimed }, .silent)

def admitScope (w : World) (scope : Scope) : World × Event :=
  let rest := w.claimed.erase scope
  if w.poisoned then ({ w.unflag scope with claimed := rest }, .refused)
  else if 0 < scope.opener.depth then
    ({ w with
      claimed := rest
      savepoints := w.savepoints + 1
      admitted := { scope with savepoint := some (w.savepoints + 1) } :: w.admitted }, .silent)
  else ({ w with claimed := rest, admitted := scope :: w.admitted }, .silent)

/-- The guard against a dropped future is armed, and the scope opened. -/
def send (w : World) (scope : Scope) : World × Event :=
  ({ w with admitted := w.admitted.erase scope, opened := w.opened ++ [scope] }.setPhase scope.id .opening,
    .sent scope.openStatement)

def answer (w : World) (scope : Scope) (ok : Bool) : Option (World × Event) :=
  match w.phase scope.id with
  | .opening =>
    if ok then
      some ({ w.setPhase scope.id .running with handed := scope.child :: w.handed }, .silent)
    else some (w.leave scope, .silent)
  | .committing =>
    if ok then some (w.leave scope, .silent)
    else some (w.setPhase scope.id .rollingBack, .sent scope.rollBackStatement)
  | .rollingBack => some ({ w.leave scope with poisoned := w.poisoned || !ok }, .silent)
  | _ => none

def ret (w : World) (scope : Scope) (ok : Bool) : Option (World × Event) :=
  if w.phase scope.id = .running then
    some (w.setPhase scope.id (.returned (ok && !w.poisoned)), .silent)
  else none

def close (w : World) (scope : Scope) : Option (World × Event) :=
  match w.phase scope.id with
  | .returned true => some (w.setPhase scope.id .committing, .sent scope.commitStatement)
  | .returned false => some (w.setPhase scope.id .rollingBack, .sent scope.rollBackStatement)
  | _ => none

def drop (w : World) (scope : Scope) : Option (World × Event) :=
  match w.phase scope.id with
  | .returned _ => none
  | _ => some ({ w.leave scope with poisoned := true }, .silent)

def step (w : World) : Action → Option (World × Event)
  | .call session => if session ∈ w.handed then some (w.call session) else none
  | .admitScope id => (w.claimed.find? (·.id = id)).map w.admitScope
  | .send id => (w.admitted.find? (·.id = id)).map w.send
  | .answer id ok => (w.opened.find? (·.id = id)).bind (w.answer · ok)
  | .ret id ok => (w.opened.find? (·.id = id)).bind (w.ret · ok)
  | .close id => (w.opened.find? (·.id = id)).bind w.close
  | .drop id => (w.opened.find? (·.id = id)).bind w.drop

/-- The runs whose every step `ok` allows. -/
inductive Run (ok : World → Action → Prop) : World → Prop
  | start : Run ok start
  | step {w w' : World} {action : Action} {event : Event} :
    Run ok w → ok w action → w.step action = some (w', event) → Run ok w'

/-- The open scopes form a chain from the pool's session, each opened through the session of the one
before, and no two of one name. -/
structure Nests (w : World) : Prop where
  first : ∀ scope ∈ w.opened.head?, scope.opener = .acquired
  chain : w.opened.IsChain fun outer inner => inner.opener = outer.child
  names : (w.opened.map (·.savepoint)).Nodup

/-- A closing statement names the innermost open scope. -/
def NamesInnermost (w : World) : Event → Prop
  | .sent .commit => w.opened.getLast?.map (·.savepoint) = some none
  | .sent .rollback => w.opened.getLast?.map (·.savepoint) = some none
  | .sent (.release name) => w.opened.getLast?.map (·.savepoint) = some (some name)
  | .sent (.rollbackTo name) => w.opened.getLast?.map (·.savepoint) = some (some name)
  | _ => True

/-- A scope is opened through the pool's session or one whose scope is open, and closes while none
that was opened through its session is open. -/
def Meets (w : World) : Action → Prop
  | .send id => ∀ scope ∈ w.admitted, scope.id = id →
      scope.opener.owner = none ∨ ∃ outer ∈ w.opened, scope.opener.owner = some outer.id
  | .answer id _ | .close id | .drop id => ∀ inner ∈ w.opened, inner.opener.owner ≠ some id
  | _ => True

/-- Calls that are under way differ in their flags, and in the savepoints they drew. -/
structure Apart (a b : Scope) : Prop where
  id : a.id ≠ b.id
  flag : a.opener.owner ≠ b.opener.owner
  name : ∀ name, a.savepoint = some name → b.savepoint ≠ some name

theorem Apart.symm {a b : Scope} (h : Apart a b) : Apart b a :=
  ⟨h.id.symm, h.flag.symm, fun name hb ha => h.name name ha hb⟩

instance : Std.Symm Apart := ⟨fun _ _ => Apart.symm⟩

def live (w : World) : List Scope := w.claimed ++ (w.admitted ++ w.opened)

/-- The calls under way are apart, they hold the flags that are set, and the sessions handed out
are those of scopes that were opened. -/
structure Guarded (w : World) (live : List Scope) : Prop where
  apart : live.Pairwise Apart
  flag_iff : ∀ owner, owner ∈ w.flags ↔ ∃ scope ∈ live, scope.opener.owner = owner
  id_lt : ∀ scope ∈ live, scope.id < w.calls
  name_le : ∀ scope ∈ live, ∀ name, scope.savepoint = some name → name ≤ w.savepoints
  opener : ∀ scope ∈ live, scope.opener ∈ w.handed
  root : ∀ session ∈ w.handed, session.owner = none ↔ session = .acquired
  handed : ∀ session ∈ w.handed, ∀ id, session.owner = some id →
    0 < session.depth ∧ id < w.calls ∧
      ∀ scope ∈ live, scope.id = id → session = scope.child ∧ w.phase id ≠ .opening ∧ scope ∈ w.opened

variable {w w' : World} {scope : Scope} {rest live' : List Scope} {action : Action} {event : Event}

namespace Guarded

theorem perm (h : w.Guarded rest) (hperm : rest.Perm live') : w.Guarded live' where
  apart := h.apart.perm hperm Apart.symm
  flag_iff owner := (h.flag_iff owner).trans (exists_congr fun _ => and_congr_left' hperm.mem_iff)
  id_lt s hs := h.id_lt s (hperm.mem_iff.mpr hs)
  name_le s hs := h.name_le s (hperm.mem_iff.mpr hs)
  opener s hs := h.opener s (hperm.mem_iff.mpr hs)
  root := h.root
  handed session hsession id hid :=
    have ⟨hdepth, hlt, hscope⟩ := h.handed session hsession id hid
    ⟨hdepth, hlt, fun s hs => hscope s (hperm.mem_iff.mpr hs)⟩

/-- A call is over: it lets its flag go, which no other call holds. -/
theorem unflag (h : w.Guarded (scope :: rest)) {claimed admitted opened : List Scope} {poisoned : Bool}
    (hopened : ∀ s ∈ rest, s ∈ w.opened → s ∈ opened) :
    Guarded { w.unflag scope with
      claimed := claimed, admitted := admitted, opened := opened, poisoned := poisoned } rest := by
  have happart : ∀ s ∈ rest, Apart scope s := fun _ hs => List.rel_of_pairwise_cons h.apart hs
  refine ⟨h.apart.of_cons, fun owner => ?_, fun s hs => h.id_lt s (List.mem_cons_of_mem _ hs),
    fun s hs => h.name_le s (List.mem_cons_of_mem _ hs), fun s hs => h.opener s (List.mem_cons_of_mem _ hs),
    h.root, fun session hsession id hid => ?_⟩
  · simp only [World.unflag, List.mem_filter, decide_eq_true_eq, h.flag_iff, List.mem_cons, exists_eq_or_imp]
    constructor
    · rintro ⟨rfl | hother, hne⟩
      · exact absurd rfl hne
      · exact hother
    · rintro ⟨s, hs, rfl⟩
      exact ⟨.inr ⟨s, hs, rfl⟩, (happart s hs).flag.symm⟩
  · obtain ⟨hdepth, hlt, hscope⟩ := h.handed session hsession id hid
    refine ⟨hdepth, hlt, fun s hs hsid => ?_⟩
    obtain ⟨hchild, hphase, hmem⟩ := hscope s (List.mem_cons_of_mem _ hs) hsid
    exact ⟨hchild, hphase, hopened s hs hmem⟩

/-- A call draws a savepoint that none has drawn. -/
theorem name (h : w.Guarded (scope :: rest)) (hnew : scope ∉ w.opened) {claimed admitted : List Scope} :
    Guarded { w with claimed := claimed, savepoints := w.savepoints + 1, admitted := admitted }
      ({ scope with savepoint := some (w.savepoints + 1) } :: rest) := by
  have happart : ∀ s ∈ rest, Apart scope s := fun _ hs => List.rel_of_pairwise_cons h.apart hs
  refine ⟨?_, fun owner => ?_, fun s hs => ?_, fun s hs name hname => ?_, fun s hs => ?_, h.root,
    fun session hsession id hid => ?_⟩
  · refine List.Pairwise.cons (fun s hs => ⟨(happart s hs).id, (happart s hs).flag, fun name hname hold => ?_⟩)
      h.apart.of_cons
    cases hname
    exact absurd (h.name_le s (List.mem_cons_of_mem _ hs) _ hold) (Nat.not_succ_le_self _)
  · simp only [h.flag_iff, List.mem_cons, exists_eq_or_imp]
  · obtain rfl | hs := List.mem_cons.mp hs
    · exact h.id_lt scope List.mem_cons_self
    · exact h.id_lt s (List.mem_cons_of_mem _ hs)
  · obtain rfl | hs := List.mem_cons.mp hs
    · cases hname
      exact Nat.le_refl _
    · exact Nat.le_succ_of_le (h.name_le s (List.mem_cons_of_mem _ hs) name hname)
  · obtain rfl | hs := List.mem_cons.mp hs
    · exact h.opener scope List.mem_cons_self
    · exact h.opener s (List.mem_cons_of_mem _ hs)
  · obtain ⟨hdepth, hlt, hscope⟩ := h.handed session hsession id hid
    refine ⟨hdepth, hlt, fun s hs hsid => ?_⟩
    obtain rfl | hs := List.mem_cons.mp hs
    · exact absurd (hscope scope List.mem_cons_self hsid).2.2 hnew
    · exact hscope s (List.mem_cons_of_mem _ hs) hsid

/-- A call sends its opening statement; it has handed out no session. -/
theorem send (h : w.Guarded (scope :: rest)) (hnew : scope ∉ w.opened) (admitted : List Scope) :
    Guarded ({ w with admitted := admitted, opened := w.opened ++ [scope] }.setPhase scope.id .opening)
      (scope :: rest) := by
  refine ⟨h.apart, h.flag_iff, h.id_lt, h.name_le, h.opener, h.root, fun session hsession id hid => ?_⟩
  obtain ⟨hdepth, hlt, hscope⟩ := h.handed session hsession id hid
  refine ⟨hdepth, hlt, fun s hs hsid => ?_⟩
  obtain ⟨hchild, hphase, hopened⟩ := hscope s hs hsid
  have hne : id ≠ scope.id := by
    rintro rfl
    exact hnew (hscope scope List.mem_cons_self rfl).2.2
  exact ⟨hchild, by simpa [World.setPhase, hne] using hphase, List.mem_append_left _ hopened⟩

end Guarded

theorem live_claimed (hmem : scope ∈ w.claimed) :
    w.live.Perm (scope :: (w.claimed.erase scope ++ (w.admitted ++ w.opened))) :=
  (List.perm_cons_erase hmem).append_right _

theorem live_admitted (hmem : scope ∈ w.admitted) :
    w.live.Perm (scope :: (w.claimed ++ (w.admitted.erase scope ++ w.opened))) :=
  (((List.perm_cons_erase hmem).append_right _).append_left _).trans List.perm_middle

theorem live_opened (hmem : scope ∈ w.opened) :
    w.live.Perm (scope :: (w.claimed ++ (w.admitted ++ w.opened.erase scope))) :=
  ((((List.perm_cons_erase hmem).append_left _).trans List.perm_middle).append_left _).trans List.perm_middle

/-- What holds of every run, whatever its program does with the handles. -/
structure Kept (w : World) : Prop where
  guarded : w.Guarded w.live
  unnamed : ∀ scope ∈ w.claimed, scope.savepoint = none
  named : ∀ scope ∈ w.admitted ++ w.opened, scope.savepoint = none ↔ scope.opener.owner = none

theorem start_kept : start.Kept where
  guarded := by
    refine ⟨.nil, fun _ => ?_, by rintro _ ⟨⟩, by rintro _ ⟨⟩, by rintro _ ⟨⟩, ?_, ?_⟩
    · exact iff_of_false (by rintro ⟨⟩) (by rintro ⟨_, ⟨⟩, _⟩)
    · intro session hsession
      rw [List.mem_singleton.mp hsession]
      exact iff_of_true rfl rfl
    · intro session hsession id hid
      rw [List.mem_singleton.mp hsession] at hid
      cases hid
  unnamed := by rintro _ ⟨⟩
  named := by rintro _ ⟨⟩

namespace Kept

theorem setPhase (h : w.Kept) (scope : Scope) {phase : Phase} (hphase : phase ≠ .opening) :
    (w.setPhase scope.id phase).Kept where
  guarded := by
    refine ⟨h.guarded.apart, h.guarded.flag_iff, h.guarded.id_lt, h.guarded.name_le, h.guarded.opener,
      h.guarded.root, fun session hsession id hid => ?_⟩
    obtain ⟨hdepth, hlt, hscope⟩ := h.guarded.handed session hsession id hid
    refine ⟨hdepth, hlt, fun s hs hsid => ?_⟩
    obtain ⟨hchild, hbefore, hopened⟩ := hscope s hs hsid
    refine ⟨hchild, ?_, hopened⟩
    simp only [World.setPhase, Function.update_apply]
    split
    · exact hphase
    · exact hbefore
  unnamed := h.unnamed
  named := h.named

theorem leave (h : w.Kept) (hmem : scope ∈ w.opened) {poisoned : Bool} :
    Kept { w.leave scope with poisoned := poisoned } where
  guarded := by
    refine (h.guarded.perm (live_opened hmem)).unflag fun s hs hopened => ?_
    refine (List.mem_erase_of_ne ?_).mpr hopened
    rintro rfl
    exact (List.rel_of_pairwise_cons (h.guarded.perm (live_opened hmem)).apart hs).id rfl
  unnamed := h.unnamed
  named s hs := h.named s (by
    rw [List.mem_append] at hs ⊢
    exact hs.imp_right List.mem_of_mem_erase)

/-- A scope that starts to run is given its session. -/
theorem hand (h : w.Kept) (hmem : scope ∈ w.opened) :
    Kept { w.setPhase scope.id .running with handed := scope.child :: w.handed } where
  guarded := by
    have hphase : Phase.running ≠ .opening := by rintro ⟨⟩
    have hrunning := (h.setPhase scope hphase).guarded
    have hlive : scope ∈ w.live := List.mem_append_right _ (List.mem_append_right _ hmem)
    refine ⟨h.guarded.apart, h.guarded.flag_iff, h.guarded.id_lt, h.guarded.name_le,
      fun s hs => List.mem_cons_of_mem _ (h.guarded.opener s hs), fun session hsession => ?_,
      fun session hsession id hid => ?_⟩
    · obtain rfl | hsession := List.mem_cons.mp hsession
      · exact iff_of_false (by rintro ⟨⟩) (by rintro ⟨⟩)
      · exact h.guarded.root session hsession
    · obtain rfl | hsession := List.mem_cons.mp hsession
      · cases hid
        refine ⟨Nat.succ_pos _, h.guarded.id_lt scope hlive, fun s hs hsid => ?_⟩
        have hsame : s = scope := by
          by_contra hne
          exact (h.guarded.apart.forall hs hlive hne).id hsid
        subst hsame
        exact ⟨rfl, by simp [World.setPhase], hmem⟩
      · exact hrunning.handed session hsession id hid
  unnamed := h.unnamed
  named := h.named

theorem call (h : w.Kept) {session : PgSession} (hhanded : session ∈ w.handed) : (w.call session).1.Kept := by
  rw [World.call]
  split
  · exact h
  · rename_i hflag
    have hfree : ∀ s ∈ w.live, s.opener.owner ≠ session.owner :=
      fun s hs heq => hflag ((h.guarded.flag_iff _).mpr ⟨s, hs, heq⟩)
    refine ⟨⟨?_, fun owner => ?_, fun s hs => ?_, fun s hs => ?_, fun s hs => ?_, h.guarded.root,
      fun other hother id hid => ?_⟩, fun s hs => ?_, h.named⟩
    · refine List.Pairwise.cons (fun s hs => ⟨?_, (hfree s hs).symm, by rintro _ ⟨⟩⟩) h.guarded.apart
      exact Nat.ne_of_gt (h.guarded.id_lt s hs)
    · simp only [List.mem_cons, h.guarded.flag_iff, live, List.cons_append, exists_eq_or_imp]
      exact or_congr_left eq_comm
    · obtain rfl | hs := List.mem_cons.mp hs
      · exact Nat.lt_succ_self _
      · exact Nat.lt_succ_of_lt (h.guarded.id_lt s hs)
    · obtain rfl | hs := List.mem_cons.mp hs
      · rintro _ ⟨⟩
      · exact h.guarded.name_le s hs
    · obtain rfl | hs := List.mem_cons.mp hs
      · exact hhanded
      · exact h.guarded.opener s hs
    · obtain ⟨hdepth, hlt, hscope⟩ := h.guarded.handed other hother id hid
      refine ⟨hdepth, Nat.lt_succ_of_lt hlt, fun s hs hsid => ?_⟩
      obtain rfl | hs := List.mem_cons.mp hs
      · exact absurd hsid (Nat.ne_of_gt hlt)
      · exact hscope s hs hsid
    · obtain rfl | hs := List.mem_cons.mp hs
      · rfl
      · exact h.unnamed s hs

/-- A session is at no depth exactly when it is the pool's. -/
theorem depth_pos_iff (h : w.Kept) (hmem : scope ∈ w.live) : 0 < scope.opener.depth ↔ scope.opener.owner ≠ none := by
  have hhanded := h.guarded.opener scope hmem
  constructor
  · intro hdepth hnone
    rw [(h.guarded.root _ hhanded).mp hnone] at hdepth
    exact absurd hdepth (Nat.lt_irrefl 0)
  · intro hsome
    obtain ⟨id, hid⟩ := Option.ne_none_iff_exists'.mp hsome
    exact (h.guarded.handed _ hhanded id hid).1

theorem not_opened (h : w.Kept) (hmem : scope ∈ w.claimed ∨ scope ∈ w.admitted) : scope ∉ w.opened := by
  intro hopened
  obtain hmem | hmem := hmem
  · have hpairs := (h.guarded.perm (live_claimed hmem)).apart
    exact (List.rel_of_pairwise_cons hpairs
      (List.mem_append_right _ (List.mem_append_right _ hopened))).id rfl
  · have hpairs := (h.guarded.perm (live_admitted hmem)).apart
    exact (List.rel_of_pairwise_cons hpairs
      (List.mem_append_right _ (List.mem_append_right _ hopened))).id rfl

theorem admitScope (h : w.Kept) (hmem : scope ∈ w.claimed) : (w.admitScope scope).1.Kept := by
  have hguarded := h.guarded.perm (live_claimed hmem)
  have hlive : scope ∈ w.live := List.mem_append_left _ hmem
  have hnew := h.not_opened (.inl hmem)
  have hunnamed : ∀ s ∈ w.claimed.erase scope, s.savepoint = none :=
    fun s hs => h.unnamed s (List.mem_of_mem_erase hs)
  rw [World.admitScope]
  split
  · exact ⟨hguarded.unflag fun _ _ hopened => hopened, hunnamed, h.named⟩
  · split
    · rename_i hdepth
      refine ⟨(hguarded.name hnew).perm List.perm_middle.symm, hunnamed, fun s hs => ?_⟩
      obtain rfl | hs := List.mem_cons.mp hs
      · exact iff_of_false (by rintro ⟨⟩) ((h.depth_pos_iff hlive).mp hdepth)
      · exact h.named s hs
    · rename_i hdepth
      refine ⟨Guarded.perm ?_ List.perm_middle.symm, hunnamed, fun s hs => ?_⟩
      · exact ⟨hguarded.apart, hguarded.flag_iff, hguarded.id_lt, hguarded.name_le, hguarded.opener,
          hguarded.root, hguarded.handed⟩
      · obtain rfl | hs := List.mem_cons.mp hs
        · refine iff_of_true (h.unnamed _ hmem) ?_
          by_contra hsome
          exact hdepth ((h.depth_pos_iff hlive).mpr hsome)
        · exact h.named s hs

theorem send (h : w.Kept) (hmem : scope ∈ w.admitted) : (w.send scope).1.Kept := by
  have hguarded := (h.guarded.perm (live_admitted hmem)).send (h.not_opened (.inr hmem))
    (w.admitted.erase scope)
  refine ⟨hguarded.perm ?_, h.unnamed, fun s hs => h.named s ?_⟩
  · refine List.perm_middle.symm.trans (List.Perm.append_left _ ?_)
    exact List.perm_middle.symm.trans (List.Perm.append_left _ (List.perm_append_singleton _ _).symm)
  · rw [List.mem_append] at hs ⊢
    obtain hs | hs := hs
    · exact .inl (List.mem_of_mem_erase hs)
    · obtain hs | hs := List.mem_append.mp hs
      · exact .inr hs
      · exact .inl (List.mem_singleton.mp hs ▸ hmem)

theorem answer (h : w.Kept) (hmem : scope ∈ w.opened) {ok : Bool}
    (hanswer : w.answer scope ok = some (w', event)) : w'.Kept := by
  rw [World.answer] at hanswer
  split at hanswer
  · split at hanswer
    · cases hanswer
      exact h.hand hmem
    · cases hanswer
      exact h.leave hmem
  · split at hanswer
    · cases hanswer
      exact h.leave hmem
    · cases hanswer
      exact h.setPhase scope (by rintro ⟨⟩)
  · cases hanswer
    exact h.leave hmem
  · cases hanswer

theorem ret (h : w.Kept) {ok : Bool} (hret : w.ret scope ok = some (w', event)) : w'.Kept := by
  rw [World.ret] at hret
  split at hret
  · cases hret
    exact h.setPhase scope (by rintro ⟨⟩)
  · cases hret

theorem close (h : w.Kept) (hclose : w.close scope = some (w', event)) : w'.Kept := by
  rw [World.close] at hclose
  split at hclose
  · cases hclose
    exact h.setPhase scope (by rintro ⟨⟩)
  · cases hclose
    exact h.setPhase scope (by rintro ⟨⟩)
  · cases hclose

theorem drop (h : w.Kept) (hmem : scope ∈ w.opened) (hdrop : w.drop scope = some (w', event)) : w'.Kept := by
  rw [World.drop] at hdrop
  split at hdrop
  · cases hdrop
  · cases hdrop
    exact h.leave hmem

end Kept

/-- What a step is: a call, or a step of one scope. -/
theorem step_cases (hstep : w.step action = some (w', event)) :
    (∃ session ∈ w.handed, action = .call session ∧ w.call session = (w', event)) ∨
    (∃ scope ∈ w.claimed, action = .admitScope scope.id ∧ w.admitScope scope = (w', event)) ∨
    (∃ scope ∈ w.admitted, action = .send scope.id ∧ w.send scope = (w', event)) ∨
    ∃ scope ∈ w.opened,
      (∃ ok, action = .answer scope.id ok ∧ w.answer scope ok = some (w', event)) ∨
      (∃ ok, action = .ret scope.id ok ∧ w.ret scope ok = some (w', event)) ∨
      (action = .close scope.id ∧ w.close scope = some (w', event)) ∨
      action = .drop scope.id ∧ w.drop scope = some (w', event) := by
  have hfound : ∀ {scopes : List Scope} {id : Nat} {scope : Scope},
      scopes.find? (·.id = id) = some scope → scope ∈ scopes ∧ scope.id = id := by
    intro scopes id scope hfind
    exact ⟨List.mem_of_find?_eq_some hfind, by simpa using List.find?_some hfind⟩
  cases action with
  | call session =>
    obtain ⟨hhanded, hcall⟩ := Option.ite_none_right_eq_some.mp hstep
    exact .inl ⟨session, hhanded, rfl, Option.some.inj hcall⟩
  | admitScope id =>
    obtain ⟨scope, hfind, hadmitScope⟩ := Option.map_eq_some_iff.mp hstep
    obtain ⟨hmem, rfl⟩ := hfound hfind
    exact .inr (.inl ⟨scope, hmem, rfl, hadmitScope⟩)
  | send id =>
    obtain ⟨scope, hfind, hsend⟩ := Option.map_eq_some_iff.mp hstep
    obtain ⟨hmem, rfl⟩ := hfound hfind
    exact .inr (.inr (.inl ⟨scope, hmem, rfl, hsend⟩))
  | answer id ok =>
    obtain ⟨scope, hfind, hanswer⟩ := Option.bind_eq_some_iff.mp hstep
    obtain ⟨hmem, rfl⟩ := hfound hfind
    exact .inr (.inr (.inr ⟨scope, hmem, .inl ⟨ok, rfl, hanswer⟩⟩))
  | ret id ok =>
    obtain ⟨scope, hfind, hret⟩ := Option.bind_eq_some_iff.mp hstep
    obtain ⟨hmem, rfl⟩ := hfound hfind
    exact .inr (.inr (.inr ⟨scope, hmem, .inr (.inl ⟨ok, rfl, hret⟩)⟩))
  | close id =>
    obtain ⟨scope, hfind, hclose⟩ := Option.bind_eq_some_iff.mp hstep
    obtain ⟨hmem, rfl⟩ := hfound hfind
    exact .inr (.inr (.inr ⟨scope, hmem, .inr (.inr (.inl ⟨rfl, hclose⟩))⟩))
  | drop id =>
    obtain ⟨scope, hfind, hdrop⟩ := Option.bind_eq_some_iff.mp hstep
    obtain ⟨hmem, rfl⟩ := hfound hfind
    exact .inr (.inr (.inr ⟨scope, hmem, .inr (.inr (.inr ⟨rfl, hdrop⟩))⟩))

theorem Kept.step (h : w.Kept) (hstep : w.step action = some (w', event)) : w'.Kept := by
  obtain ⟨session, hhanded, -, hcall⟩ | ⟨scope, hmem, -, hadmitScope⟩ | ⟨scope, hmem, -, hsend⟩ |
    ⟨scope, hmem, ⟨ok, -, hanswer⟩ | ⟨ok, -, hret⟩ | ⟨-, hclose⟩ | ⟨-, hdrop⟩⟩ := step_cases hstep
  · have hkept := h.call hhanded
    rwa [hcall] at hkept
  · have hkept := h.admitScope hmem
    rwa [hadmitScope] at hkept
  · have hkept := h.send hmem
    rwa [hsend] at hkept
  · exact h.answer hmem hanswer
  · exact h.ret hret
  · exact h.close hclose
  · exact h.drop hmem hdrop

theorem Run.kept {ok : World → Action → Prop} (hrun : Run ok w) : w.Kept := by
  induction hrun with
  | start => exact start_kept
  | step _ _ hstep ih => exact ih.step hstep

end World

end AsceticDdd.Session.Pg
