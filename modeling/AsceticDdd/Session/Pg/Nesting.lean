import AsceticDdd.Session.Pg.Scopes

/-!
# Scopes nest

As long as scopes are opened through sessions whose scopes are open, and none closes before those
opened through its session, the open scopes form a chain: the flags see to the rest. A step that
does otherwise breaks the chain, or closes a scope that is not the innermost.
-/

namespace AsceticDdd.Session.Pg.World

variable {w w' : World} {scope : Scope} {action : Action} {event : Event}

section Chain

variable {scopes : List Scope}

/-- All scopes of a chain but the first are opened through the session of one before. -/
theorem opener_of_chain (hchain : scopes.IsChain fun outer inner => inner.opener = outer.child) :
    ∀ inner ∈ scopes, scopes.head? = some inner ∨ ∃ outer ∈ scopes.dropLast, inner.opener = outer.child := by
  induction hchain with
  | nil => rintro _ ⟨⟩
  | singleton outer =>
    intro inner hinner
    exact .inl (congrArg some (List.mem_singleton.mp hinner).symm)
  | @cons_cons outer next rest hopener _ ih =>
    intro inner hinner
    obtain rfl | hinner := List.mem_cons.mp hinner
    · exact .inl rfl
    · obtain hnext | ⟨found, hfound, hthrough⟩ := ih inner hinner
      · cases hnext
        exact .inr ⟨outer, List.mem_cons_self, hopener⟩
      · exact .inr ⟨found, List.mem_cons_of_mem _ hfound, hthrough⟩

/-- The scope of a chain through whose session none is opened is the last one. -/
theorem getLast_of_chain (hchain : scopes.IsChain fun outer inner => inner.opener = outer.child)
    (hmem : scope ∈ scopes) (hnone : ∀ inner ∈ scopes, inner.opener.owner ≠ some scope.id) :
    scopes.getLast? = some scope := by
  induction hchain with
  | nil => cases hmem
  | singleton outer => exact congrArg some (List.mem_singleton.mp hmem).symm
  | @cons_cons outer next rest hopener _ ih =>
    obtain rfl | hmem := List.mem_cons.mp hmem
    · exact absurd (congrArg PgSession.owner hopener) (hnone next (List.mem_cons_of_mem _ List.mem_cons_self))
    · rw [List.getLast?_cons_cons]
      exact ih hmem fun inner hinner => hnone inner (List.mem_cons_of_mem _ hinner)

end Chain

namespace Kept

theorem apart_opened (h : w.Kept) : w.opened.Pairwise Apart :=
  h.guarded.apart.sublist ((List.sublist_append_right _ _).trans (List.sublist_append_right _ _))

theorem mem_live (hmem : scope ∈ w.opened) : scope ∈ w.live :=
  List.mem_append_right _ (List.mem_append_right _ hmem)

theorem eq_of_id (h : w.Kept) {other : Scope} (hmem : scope ∈ w.opened) (hother : other ∈ w.opened)
    (hid : scope.id = other.id) : scope = other := by
  by_contra hne
  exact (h.apart_opened.forall hmem hother hne).id hid

/-- A scope that was opened through another's session was given that session while it was open. -/
theorem opener_eq (h : w.Kept) {inner : Scope} (hinner : inner ∈ w.live) (hmem : scope ∈ w.opened)
    (howner : inner.opener.owner = some scope.id) : inner.opener = scope.child ∧ w.phase scope.id ≠ .opening := by
  obtain ⟨-, -, hscope⟩ := h.guarded.handed _ (h.guarded.opener inner hinner) scope.id howner
  obtain ⟨hchild, hphase, -⟩ := hscope scope (mem_live hmem) rfl
  exact ⟨hchild, hphase⟩

theorem nodup_opened (h : w.Kept) : w.opened.Nodup :=
  h.apart_opened.imp fun happart heq => happart.id (congrArg Scope.id heq)

end Kept

/-- An open scope is the innermost exactly when none was opened through its session. -/
theorem last_iff (h : w.Kept) (hnests : w.Nests) (hmem : scope ∈ w.opened) :
    (∀ inner ∈ w.opened, inner.opener.owner ≠ some scope.id) ↔ w.opened.getLast? = some scope := by
  constructor
  · exact getLast_of_chain hnests.chain hmem
  · intro hlast inner hinner howner
    obtain ⟨init, hinit⟩ := List.getLast?_eq_some_iff.mp hlast
    obtain hhead | ⟨outer, houter, hthrough⟩ := opener_of_chain hnests.chain inner hinner
    · rw [hnests.first inner hhead] at howner
      cases howner
    · rw [hinit, List.dropLast_concat] at houter
      have hid : outer.id = scope.id := Option.some.inj ((congrArg PgSession.owner hthrough).symm.trans howner)
      have hsame := h.eq_of_id (hinit ▸ List.mem_append_left _ houter) hmem hid
      have hnodup := h.nodup_opened
      rw [hinit, hsame.symm] at hnodup
      exact List.disjoint_of_nodup_append hnodup houter (List.mem_singleton_self outer)

theorem names_iff (hnests : w.Nests) (hmem : scope ∈ w.opened) :
    w.opened.getLast?.map (·.savepoint) = some scope.savepoint ↔ w.opened.getLast? = some scope := by
  constructor
  · intro hname
    obtain ⟨last, hlast, hsame⟩ := Option.map_eq_some_iff.mp hname
    rw [hlast, List.inj_on_of_nodup_map hnests.names (List.mem_of_getLast? hlast) hmem hsame]
  · intro hlast
    rw [hlast]
    rfl

theorem commit_names_iff (hnests : w.Nests) (hmem : scope ∈ w.opened) :
    w.NamesInnermost (.sent scope.commitStatement) ↔ w.opened.getLast? = some scope := by
  rw [← names_iff hnests hmem, Scope.commitStatement]
  cases scope.savepoint with
  | none => rfl
  | some name => rfl

theorem rollBack_names_iff (hnests : w.Nests) (hmem : scope ∈ w.opened) :
    w.NamesInnermost (.sent scope.rollBackStatement) ↔ w.opened.getLast? = some scope := by
  rw [← names_iff hnests hmem, Scope.rollBackStatement]
  cases scope.savepoint with
  | none => rfl
  | some name => rfl

theorem openStatement_names (w : World) (scope : Scope) : w.NamesInnermost (.sent scope.openStatement) := by
  rw [Scope.openStatement]
  cases scope.savepoint with
  | none => exact trivial
  | some name => exact trivial

theorem leave_nests_iff (h : w.Kept) (hnests : w.Nests) (hmem : scope ∈ w.opened) :
    (w.leave scope).Nests ↔ w.opened.getLast? = some scope := by
  constructor
  · intro hleft
    refine (last_iff h hnests hmem).mp fun inner hinner howner => ?_
    have hne : inner ≠ scope := by
      rintro rfl
      have hchild := (h.opener_eq (Kept.mem_live hinner) hinner howner).1
      exact absurd (congrArg PgSession.depth hchild) (Nat.succ_ne_self _).symm
    obtain hhead | ⟨outer, houter, hthrough⟩ :=
      opener_of_chain hleft.chain inner ((List.mem_erase_of_ne hne).mpr hinner)
    · rw [hleft.first inner hhead] at howner
      cases howner
    · have hid : outer.id = scope.id := Option.some.inj ((congrArg PgSession.owner hthrough).symm.trans howner)
      have hleftMem : outer ∈ w.opened.erase scope := (List.dropLast_subset _) houter
      have hsame := h.eq_of_id (List.mem_of_mem_erase hleftMem) hmem hid
      rw [hsame] at hleftMem
      exact h.nodup_opened.not_mem_erase hleftMem
  · intro hlast
    obtain ⟨init, hinit⟩ := List.getLast?_eq_some_iff.mp hlast
    have herase : w.opened.erase scope = init := by
      have hnodup := h.nodup_opened
      rw [hinit] at hnodup ⊢
      have hnot : scope ∉ init := fun hin =>
        List.disjoint_of_nodup_append hnodup hin (List.mem_singleton_self scope)
      rw [List.erase_append_right _ hnot, List.erase_cons_head, List.append_nil]
    have hsub : (w.leave scope).opened.Sublist w.opened := List.erase_sublist
    refine ⟨fun first hfirst => hnests.first first ?_, ?_, hnests.names.sublist (hsub.map _)⟩
    · change first ∈ (w.opened.erase scope).head? at hfirst
      rw [herase] at hfirst
      rw [hinit]
      exact List.mem_head?_append_of_mem_head? hfirst
    · change (w.opened.erase scope).IsChain _
      rw [herase]
      exact (hinit ▸ hnests.chain).left_of_append

theorem send_nests_iff (h : w.Kept) (hnests : w.Nests) (hmem : scope ∈ w.admitted) :
    (w.send scope).1.Nests ↔
      scope.opener.owner = none ∨ ∃ outer ∈ w.opened, scope.opener.owner = some outer.id := by
  have hlive : scope ∈ w.live := List.mem_append_right _ (List.mem_append_left _ hmem)
  have hapart : ∀ s ∈ w.opened, Apart scope s := fun s hs =>
    List.rel_of_pairwise_cons (h.guarded.perm (live_admitted hmem)).apart
      (List.mem_append_right _ (List.mem_append_right _ hs))
  constructor
  · intro hsent
    have hin : scope ∈ (w.send scope).1.opened := List.mem_append_right _ (List.mem_singleton_self scope)
    obtain hhead | ⟨outer, houter, hthrough⟩ := opener_of_chain hsent.chain scope hin
    · exact .inl (congrArg PgSession.owner (hsent.first scope hhead))
    · change outer ∈ (w.opened ++ [scope]).dropLast at houter
      rw [List.dropLast_concat] at houter
      exact .inr ⟨outer, houter, congrArg PgSession.owner hthrough⟩
  · intro hopener
    have hlast : ∀ last ∈ w.opened.getLast?, scope.opener = last.child := by
      intro last hlast
      obtain hnone | ⟨outer, houter, howner⟩ := hopener
      · have hfirst : ∃ first, w.opened.head? = some first := by
          cases hopened : w.opened with
          | nil =>
            rw [hopened] at hlast
            cases hlast
          | cons first rest => exact ⟨first, rfl⟩
        obtain ⟨first, hfirst⟩ := hfirst
        have hflag := congrArg PgSession.owner (hnests.first first hfirst)
        exact absurd (hnone.trans hflag.symm) (hapart first (List.mem_of_head? hfirst)).flag
      · have hinnermost : w.opened.getLast? = some outer := getLast_of_chain hnests.chain houter
          fun inner hinner heq => (hapart inner hinner).flag (howner.trans heq.symm)
        cases hinnermost.symm.trans hlast
        exact (h.opener_eq hlive houter howner).1
    refine ⟨fun first hfirst => ?_, ?_, ?_⟩
    · cases hopened : w.opened with
      | nil =>
        simp only [send, setPhase, hopened, List.nil_append, List.head?_cons, Option.mem_some_iff] at hfirst
        subst hfirst
        obtain hnone | ⟨outer, houter, -⟩ := hopener
        · exact (h.guarded.root _ (h.guarded.opener scope hlive)).mp hnone
        · rw [hopened] at houter
          cases houter
      | cons outer rest =>
        simp only [send, setPhase, hopened, List.cons_append, List.head?_cons, Option.mem_some_iff] at hfirst
        subst hfirst
        exact hnests.first outer (by rw [hopened]; rfl)
    · refine List.isChain_append.mpr ⟨hnests.chain, List.isChain_singleton _, fun last hl inner hinner => ?_⟩
      rw [Option.mem_some_iff.mp hinner.symm] at *
      exact hlast last hl
    · change ((w.opened ++ [scope]).map (·.savepoint)).Nodup
      rw [List.map_append, List.map_singleton]
      refine hnests.names.append (List.nodup_singleton _) fun name hname hsame => ?_
      obtain ⟨outer, houter, rfl⟩ := List.mem_map.mp hname
      have hsame : outer.savepoint = scope.savepoint := List.mem_singleton.mp hsame
      have hnamed := h.named scope (List.mem_append_left _ hmem)
      have hnamed' := h.named outer (List.mem_append_right _ houter)
      cases hsavepoint : scope.savepoint with
      | none =>
        refine (hapart outer houter).flag ?_
        rw [hnamed.mp hsavepoint, hnamed'.mp (hsame.trans hsavepoint)]
      | some name => exact (hapart outer houter).name name hsavepoint (hsame.trans hsavepoint)

/-- The flags refuse a call on a session that is not the innermost scope's. -/
theorem call_refused (h : w.Kept) (hnests : w.Nests) {session : PgSession} (hhanded : session ∈ w.handed)
    (hopen : session.owner = none ∨ ∃ outer ∈ w.opened, session.owner = some outer.id)
    (hscopes : w.opened ≠ []) (hnot : ∀ last ∈ w.opened.getLast?, session ≠ last.child) :
    w.step (.call session) = some (w, .refused) := by
  have hflag : session.owner ∈ w.flags := by
    refine (h.guarded.flag_iff _).mpr ?_
    obtain hnone | ⟨outer, houter, howner⟩ := hopen
    · obtain ⟨first, rest, hopened⟩ := List.exists_cons_of_ne_nil hscopes
      have hfirst : first ∈ w.opened := hopened ▸ List.mem_cons_self
      refine ⟨first, Kept.mem_live hfirst, ?_⟩
      rw [hnests.first first (by rw [hopened]; rfl), hnone]
      rfl
    · obtain ⟨-, -, hscope⟩ := h.guarded.handed session hhanded outer.id howner
      have hchild := (hscope outer (Kept.mem_live houter) rfl).1
      have hinner : ¬ ∀ inner ∈ w.opened, inner.opener.owner ≠ some outer.id := fun hnone =>
        hnot outer ((last_iff h hnests houter).mp hnone) hchild
      push Not at hinner
      obtain ⟨inner, hmem, hthrough⟩ := hinner
      exact ⟨inner, Kept.mem_live hmem, hthrough.trans howner.symm⟩
  rw [step, if_pos hhanded, call, if_pos hflag]

theorem answer_nests_iff (h : w.Kept) (hnests : w.Nests) (hmem : scope ∈ w.opened) {ok : Bool}
    (hanswer : w.answer scope ok = some (w', event)) :
    w.Meets (.answer scope.id ok) ↔ w'.Nests ∧ w.NamesInnermost event := by
  refine (last_iff h hnests hmem).trans ?_
  rw [answer] at hanswer
  split at hanswer
  · rename_i hphase
    have hlast := (last_iff h hnests hmem).mp fun inner hinner howner =>
      (h.opener_eq (Kept.mem_live hinner) hmem howner).2 hphase
    split at hanswer
    · cases hanswer
      exact iff_of_true hlast ⟨⟨hnests.first, hnests.chain, hnests.names⟩, trivial⟩
    · cases hanswer
      exact iff_of_true hlast ⟨(leave_nests_iff h hnests hmem).mpr hlast, trivial⟩
  · split at hanswer
    · cases hanswer
      exact (leave_nests_iff h hnests hmem).symm.trans (and_iff_left trivial).symm
    · cases hanswer
      refine (rollBack_names_iff hnests hmem).symm.trans (and_iff_right ?_).symm
      exact ⟨hnests.first, hnests.chain, hnests.names⟩
  · cases hanswer
    refine (leave_nests_iff h hnests hmem).symm.trans ?_
    refine ⟨fun hleft => ⟨⟨hleft.first, hleft.chain, hleft.names⟩, trivial⟩, fun hboth => ?_⟩
    exact ⟨hboth.1.first, hboth.1.chain, hboth.1.names⟩
  · cases hanswer

theorem close_nests_iff (h : w.Kept) (hnests : w.Nests) (hmem : scope ∈ w.opened)
    (hclose : w.close scope = some (w', event)) :
    w.Meets (.close scope.id) ↔ w'.Nests ∧ w.NamesInnermost event := by
  refine (last_iff h hnests hmem).trans ?_
  rw [close] at hclose
  split at hclose
  · cases hclose
    refine (commit_names_iff hnests hmem).symm.trans (and_iff_right ?_).symm
    exact ⟨hnests.first, hnests.chain, hnests.names⟩
  · cases hclose
    refine (rollBack_names_iff hnests hmem).symm.trans (and_iff_right ?_).symm
    exact ⟨hnests.first, hnests.chain, hnests.names⟩
  · cases hclose

theorem drop_nests_iff (h : w.Kept) (hnests : w.Nests) (hmem : scope ∈ w.opened)
    (hdrop : w.drop scope = some (w', event)) :
    w.Meets (.drop scope.id) ↔ w'.Nests ∧ w.NamesInnermost event := by
  refine (last_iff h hnests hmem).trans ?_
  rw [drop] at hdrop
  split at hdrop
  · cases hdrop
  · cases hdrop
    refine (leave_nests_iff h hnests hmem).symm.trans ?_
    refine ⟨fun hleft => ⟨⟨hleft.first, hleft.chain, hleft.names⟩, trivial⟩, fun hboth => ?_⟩
    exact ⟨hboth.1.first, hboth.1.chain, hboth.1.names⟩

/-- A step keeps the chain and closes the innermost exactly when it meets the condition. -/
theorem step_nests_iff (h : w.Kept) (hnests : w.Nests) (hstep : w.step action = some (w', event)) :
    w.Meets action ↔ w'.Nests ∧ w.NamesInnermost event := by
  obtain ⟨session, -, rfl, hcall⟩ | ⟨scope, hmem, rfl, hadmitScope⟩ | ⟨scope, hmem, rfl, hsend⟩ |
    ⟨scope, hmem, ⟨ok, rfl, hanswer⟩ | ⟨ok, rfl, hret⟩ | ⟨rfl, hclose⟩ | ⟨rfl, hdrop⟩⟩ := step_cases hstep
  · refine iff_of_true trivial ?_
    rw [call] at hcall
    split at hcall
    · cases hcall
      exact ⟨hnests, trivial⟩
    · cases hcall
      exact ⟨⟨hnests.first, hnests.chain, hnests.names⟩, trivial⟩
  · refine iff_of_true trivial ?_
    rw [admitScope] at hadmitScope
    split at hadmitScope
    · cases hadmitScope
      exact ⟨⟨hnests.first, hnests.chain, hnests.names⟩, trivial⟩
    · split at hadmitScope
      · cases hadmitScope
        exact ⟨⟨hnests.first, hnests.chain, hnests.names⟩, trivial⟩
      · cases hadmitScope
        exact ⟨⟨hnests.first, hnests.chain, hnests.names⟩, trivial⟩
  · have hmeets : w.Meets (.send scope.id) ↔
        scope.opener.owner = none ∨ ∃ outer ∈ w.opened, scope.opener.owner = some outer.id := by
      refine ⟨fun hall => hall scope hmem rfl, fun hopener other hother hid => ?_⟩
      have hsame : other = scope := by
        by_contra hne
        refine (h.guarded.apart.forall ?_ ?_ hne).id hid
        · exact List.mem_append_right _ (List.mem_append_left _ hother)
        · exact List.mem_append_right _ (List.mem_append_left _ hmem)
      exact hsame ▸ hopener
    refine hmeets.trans ((send_nests_iff h hnests hmem).symm.trans ?_)
    rw [hsend]
    cases hsend
    exact (and_iff_left (openStatement_names w scope)).symm
  · exact answer_nests_iff h hnests hmem hanswer
  · refine iff_of_true trivial ?_
    rw [ret] at hret
    split at hret
    · cases hret
      exact ⟨⟨hnests.first, hnests.chain, hnests.names⟩, trivial⟩
    · cases hret
  · exact close_nests_iff h hnests hmem hclose
  · exact drop_nests_iff h hnests hmem hdrop

/-- Runs that meet the condition nest; and the next step goes on nesting exactly when it does. -/
theorem run_nests (hrun : Run Meets w) :
    w.Nests ∧
    (∀ session ∈ w.handed, session.owner = none ∨ (∃ outer ∈ w.opened, session.owner = some outer.id) →
      w.opened ≠ [] → (∀ last ∈ w.opened.getLast?, session ≠ last.child) →
      w.step (.call session) = some (w, .refused)) ∧
    ∀ action w' event, w.step action = some (w', event) →
      (w.Meets action ↔ w'.Nests ∧ w.NamesInnermost event) := by
  have hnests : w.Nests := by
    induction hrun with
    | start => exact ⟨by rintro _ ⟨⟩, .nil, .nil⟩
    | step hrun hmeets hstep ih => exact ((step_nests_iff hrun.kept ih hstep).mp hmeets).1
  refine ⟨hnests, fun session hhanded hopen hscopes hnot => ?_, fun action w' event hstep => ?_⟩
  · exact call_refused hrun.kept hnests hhanded hopen hscopes hnot
  · exact step_nests_iff hrun.kept hnests hstep

theorem Run.next {ok : World → Action → Prop} (hrun : Run ok w) (action : Action) (hok : ok w action)
    {next : World × Event} (hstep : w.step action = some next) : Run ok next.1 :=
  hrun.step hok hstep

theorem run_nests_two : ∃ w : World,
    w.opened = [⟨0, .acquired, none⟩, ⟨1, ⟨some 0, 1⟩, some 1⟩] ∧ w.Nests := by
  have hstart : Run Meets start := .start
  have hcalled := (hstart.next (.call .acquired) trivial rfl).next (.admitScope 0) trivial rfl
  have hsent := hcalled.next (.send 0)
    (fun scope hscope _ => .inl (List.mem_singleton.mp hscope ▸ rfl)) rfl
  have hbegun := hsent.next (.answer 0 true)
    (fun inner hinner => List.mem_singleton.mp hinner ▸ by rintro ⟨⟩) rfl
  have hcalled' := (hbegun.next (.call ⟨some 0, 1⟩) trivial rfl).next (.admitScope 1) trivial rfl
  have hsent' := hcalled'.next (.send 1)
    (fun scope hscope _ => .inr ⟨_, List.mem_singleton_self _, List.mem_singleton.mp hscope ▸ rfl⟩) rfl
  exact ⟨_, rfl, (run_nests hsent').1⟩

/-- A session is kept after its scope ended, and a scope is opened through it beside another. -/
def keptSession : List Action :=
  [.call .acquired, .admitScope 0, .send 0, .answer 0 true,
    .call ⟨some 0, 1⟩, .admitScope 1, .send 1, .answer 1 true, .ret 1 true, .close 1, .answer 1 true,
    .call ⟨some 1, 2⟩, .admitScope 2, .send 2, .answer 2 true,
    .call ⟨some 0, 1⟩, .admitScope 3, .send 3, .answer 3 true, .ret 2 true]

/-- Where actions lead, one after the other. -/
def after (w : World) : List Action → World
  | [] => w
  | action :: rest => (w.step action).elim w fun next => next.1.after rest

theorem Run.after (actions : List Action) (hrun : Run (fun _ _ => True) w) :
    Run (fun _ _ => True) (w.after actions) := by
  induction actions generalizing w with
  | nil => exact hrun
  | cons action actions ih =>
    rw [World.after]
    cases hstep : w.step action with
    | none => exact hrun
    | some next => exact ih (hrun.step trivial hstep)

/-- The kept session opens a scope that is not opened through the one before it, and releases it
while another is the innermost. -/
theorem kept_session_breaks : ∃ w, Run (fun _ _ => True) w ∧ ¬ w.Nests ∧
    ∃ w', w.step (.close 2) = some (w', .sent (.release 2)) ∧ ¬ w.NamesInnermost (.sent (.release 2)) := by
  refine ⟨start.after keptSession, .after keptSession .start, fun hnests => ?_, _, rfl, ?_⟩
  · have hlinked := hnests.chain
    have hopened : (start.after keptSession).opened =
        [⟨0, .acquired, none⟩, ⟨2, ⟨some 1, 2⟩, some 2⟩, ⟨3, ⟨some 0, 1⟩, some 3⟩] := by decide
    rw [hopened] at hlinked
    exact absurd hlinked.rel (by decide)
  · change ¬ (start.after keptSession).opened.getLast?.map (·.savepoint) = some (some 2)
    decide

end AsceticDdd.Session.Pg.World
