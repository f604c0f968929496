import AsceticDdd.Outbox.Stability

/-!
# What each write keeps

The writes of the outbox's tables, of its locks and of the server's transactions, one by one:
each keeps the invariant, within the guarantee of the session that makes it.
-/

namespace AsceticDdd.Outbox

open Postgres

variable {o : PgOutbox} {fair : Nat → Prop} {d : Database} {i : Nat}

theorem Guarantee.refl (o : PgOutbox) (i : Nat) (d : Database) : Guarantee o i d d where
  transactions := .refl i _
  written := ⟨[], (List.append_nil _).symm, by simp⟩
  table _ := Or.inl
  removed _ := Or.inl
  spent _ := Or.inl
  cells _ _ _ _ := rfl
  locks _ _ _ := id
  grows _ row hrow := ⟨row, hrow, Or.inl fun _ => id⟩
  created _ row hrow := Or.inl (by rw [hrow]; exact nofun)
  key := .refl i _
  partitions _ _ _ := .rfl
  intact := Or.inl rfl
  bounds _ := id
  drawn _ _ _ := id

/-- What a step has to establish of the shared state. -/
structure Kept (o : PgOutbox) (fair : Nat → Prop) (i : Nat) (d d' : Database) : Prop where
  consistent : Consistent o fair d'
  guarantee : Guarantee o i d d'

theorem Kept.refl (h : Consistent o fair d) (i : Nat) : Kept o fair i d d := ⟨h, .refl o i d⟩

section Transactions

variable {t : Transactions}

/-- Nothing counts below the bounds fixed but what counted before. -/
theorem Consistent.spent_of_advances (h : Consistent o fair d)
    (ht : Transactions.Advances i d.transactions t) {r : Row}
    (hr : ({ d with transactions := t } : Database).Spent r) : d.Spent r := by
  obtain ⟨hwritten, hcommitted, hgone⟩ := hr
  by_cases hended : d.transactions.Ended r.transactionId
  · exact ⟨hwritten, (ht.status _ hended).symm.trans hcommitted, hgone⟩
  · rcases hgone with hgone | ⟨bound, hbound, hlt⟩
    · exact absurd (h.rows.kept r hwritten hended) hgone
    · have := (h.bounds bound hbound).2 _ (h.rows.ids r hwritten) hended
        (h.rows.here r hwritten hended)
      omega

/-- A step of the transactions alone. The session stays in its own, or holds nothing. -/
theorem Consistent.advance (h : Consistent o fair d) (ht : Transactions.Advances i d.transactions t)
    (hown : (∀ x, d.transactions.own i = some x → t.own i = some x) ∨
      (∀ key, (d.cells key).lock ≠ some i) ∧ ∀ generation, d.partitions generation ≠ some i) :
    Kept o fair i d { d with transactions := t } := by
  have hspent : ∀ r, Database.Spent { d with transactions := t } r → d.Spent r :=
    fun r hr => h.spent_of_advances ht hr
  have hguarantee : Guarantee o i d { d with transactions := t } :=
    { Guarantee.refl o i d with
      transactions := ht
      written := ⟨[], (List.append_nil _).symm, by simp⟩
      spent := fun r hr => Or.inl (hspent r hr) }
  refine ⟨⟨?_, fun key => ?_, fun r hr => h.intact r (hspent r hr),
    fun bound hbound => hguarantee.runningFrom (h.bounds bound hbound)⟩, hguarantee⟩
  · refine { h.rows with
      kept := fun r hr hrunning => h.rows.kept r hr fun hended => hrunning (ht.ended hended)
      ids := fun r hr => (h.rows.ids r hr).trans_le ht.next
      here := fun r hr hrunning helsewhere => h.rows.here r hr
        (fun hended => hrunning (ht.ended hended))
        ((ht.elsewhere _ (h.rows.ids r hr)).mp helsewhere)
      partitions := fun generation s hheld r hr hgen => ?_ }
    refine (h.rows.partitions generation s hheld r hr hgen).imp ht.ended fun hr' => ?_
    by_cases hs : s = i
    · subst hs
      exact hown.elim (fun hown => hown _ hr') fun hnone => absurd hheld (hnone.2 generation)
    · exact (ht.own s hs).trans hr'
  · refine (h.cells key).env (fun _ => id)
      (later_committed { d with transactions := t } ht (List.append_nil _).symm (by simp))
      (fun s row hlock _ hsound => ?_) (fun _ _ => ⟨id, id⟩) fun r hr _ => Or.inl (hspent r hr)
    by_cases hs : s = i
    · subst hs
      refine hsound.mono (later_own { d with transactions := t } ht rfl h.rows.ids ?_)
      exact hown.elim id fun hnone => absurd hlock (hnone.1 key)
    · exact hsound.mono (later_pending { d with transactions := t } ht (List.append_nil _).symm
        (by simp) hs)

end Transactions

section Locks

theorem Consistent.setKey (h : Consistent o fair d) {k : AdvisoryLock}
    (hkeeps : AdvisoryLock.Keeps i d.reclamationKey k)
    (hheld : (d.reclamationKey.Holds i → k.Holds i) ∧
      (d.reclamationKey.exclusive = some i → k.exclusive = some i) ∨
      ∀ key, (d.cells key).lock = some i → (d.cells key).pending = none) :
    Kept o fair i d { d with reclamationKey := k } where
  consistent :=
    { rows := { h.rows with }
      cells := fun key => by
        by_cases hcell : (d.cells key).lock = some i ∧ (d.cells key).pending = none
        · have hanew := ((h.cells key).unwritten hcell.2).1
          exact { h.cells key with anew_held := fun _ _ hne => absurd hanew hne }
        · refine { h.cells key with anew_held := fun s hs hanew => ?_ }
          obtain ⟨hholds, hexclusive⟩ := (h.cells key).anew_held s hs hanew
          by_cases hsi : s = i
          · subst hsi
            rcases hheld with hheld | hnone
            · exact ⟨hheld.1 hholds, fun hc => hheld.2 (hexclusive hc)⟩
            · exact absurd ⟨hs, hnone key hs⟩ hcell
          · exact ⟨(hkeeps.holds hsi).mpr hholds,
              fun hc => (hkeeps.exclusive s hsi).mpr (hexclusive hc)⟩
      intact := h.intact
      bounds := h.bounds }
  guarantee := { Guarantee.refl o i d with key := hkeeps }

theorem Consistent.lockPartition (h : Consistent o fair d) {generation : Nat} {d' : Database}
    (hlock : d.lockPartition o i generation = some d') :
    Kept o fair i d d' ∧ d'.partitions generation = some i ∧
      d' = { d with partitions := Function.update d.partitions generation (some i) } := by
  rw [Database.lockPartition] at hlock
  split at hlock
  · rename_i hguard
    cases hlock
    refine ⟨⟨?_, ?_⟩, Function.update_self .., rfl⟩
    · refine ⟨{ h.rows with partitions := fun g s hheld r hr hgen => ?_ },
        fun key => { h.cells key with }, h.intact, h.bounds⟩
      dsimp only at hheld
      by_cases hg : g = generation
      · subst hg
        rw [Function.update_self, Option.some.injEq] at hheld
        subst hheld
        exact hguard.2 r hr hgen
      · rw [Function.update_of_ne hg] at hheld
        exact h.rows.partitions g s hheld r hr hgen
    · refine { Guarantee.refl o i d with partitions := fun g s hs => ?_ }
      dsimp only
      by_cases hg : g = generation
      · subst hg
        rw [Function.update_self]
        have hne : (some i : Option Nat) ≠ some s := fun h => hs (Option.some.inj h).symm
        rcases hguard.1 with hfree | hfree <;> simp [hfree, hne]
      · rw [Function.update_of_ne hg]
  · cases hlock

theorem Consistent.refuse (h : Consistent o fair d) (reason : String) : Kept o fair i d (d.refuse reason) where
  consistent := ⟨{ h.rows with }, fun key => { h.cells key with }, h.intact, h.bounds⟩
  guarantee := { Guarantee.refl o i d with }

end Locks

section Rows

theorem Database.draw_eq {d' : Database} {position : Int} (h : d.draw i = some (d', position)) :
    position = d.nextPosition ∧ d' = { d with
      nextPosition := d.nextPosition + 1
      drawn := Function.update d.drawn d.nextPosition (some i) } := by
  rw [Database.draw] at h
  split at h
  · cases h
    exact ⟨rfl, rfl⟩
  · cases h

theorem Consistent.draw (h : Consistent o fair d) {d' : Database} {position : Int}
    (hdraw : d.draw i = some (d', position)) : Kept o fair i d d' ∧ d'.drawn position = some i := by
  obtain ⟨rfl, rfl⟩ := Database.draw_eq hdraw
  refine ⟨⟨?_, ?_⟩, Function.update_self ..⟩
  · refine ⟨{ h.rows with
      position_lt := fun r hr => (h.rows.position_lt r hr).trans (Int.lt_succ _)
      drawn_lt := fun p s hp => ?_
      drawn_free := fun r hr => ?_ }, fun key => { h.cells key with }, h.intact, h.bounds⟩
    · dsimp only at hp
      by_cases heq : p = d.nextPosition
      · subst heq
        exact Int.lt_succ _
      · rw [Function.update_of_ne heq] at hp
        exact (h.rows.drawn_lt p s hp).trans (Int.lt_succ _)
    · have := h.rows.position_lt r hr
      dsimp only
      rw [Function.update_of_ne (by omega)]
      exact h.rows.drawn_free r hr
  · refine { Guarantee.refl o i d with drawn := fun p s _ hp => ?_ }
    have := h.rows.drawn_lt p s hp
    dsimp only
    rw [Function.update_of_ne (by omega)]
    exact hp

theorem Database.insert_eq {message : Message} {createdAt : String} {position : Int}
    {d' : Database} (h : d.insert o i message createdAt position = some d') :
    ∃ transactionId, d.transactions.own i = some transactionId ∧
      (d.partitions (o.generationOf ⟨message, createdAt, position, transactionId⟩) = none ∨
        d.partitions (o.generationOf ⟨message, createdAt, position, transactionId⟩) = some i) ∧
      d' = { d with
        drawn := Function.update d.drawn position none
        table := d.table ++ [⟨message, createdAt, position, transactionId⟩]
        written := d.written ++ [⟨message, createdAt, position, transactionId⟩] } := by
  rw [Database.insert] at h
  split at h
  · cases h
  · rename_i transactionId hown
    dsimp only at h
    split at h
    · rename_i hpartition
      cases h
      exact ⟨transactionId, hown, hpartition, rfl⟩
    · cases h

theorem Consistent.insert (h : Consistent o fair d) {message : Message} {createdAt : String}
    {position : Int} {d' : Database} (hdrawn : d.drawn position = some i) (hanew : d.Anew i)
    (hhere : ∀ x, d.transactions.own i = some x → d.transactions.seat x ≠ .elsewhere)
    (hinsert : d.insert o i message createdAt position = some d') : Kept o fair i d d' := by
  obtain ⟨xid, hown, hpartition, rfl⟩ := Database.insert_eq hinsert
  have hrunning := d.transactions.not_ended_of_own hown
  have hfree : ∀ r ∈ d.written, r.position ≠ position := fun r hr heq => by
    have := h.rows.drawn_free r hr
    rw [heq, hdrawn] at this
    cases this
  have hnotin : (⟨message, createdAt, position, xid⟩ : Row) ∉ d.written := fun hr =>
    hfree _ hr rfl
  have hnew : ∀ r ∈ [(⟨message, createdAt, position, xid⟩ : Row)],
      d.transactions.own i = some r.transactionId := by
    intro r hr
    rw [List.mem_singleton.mp hr]
    exact hown
  have hspent : ∀ r, Database.Spent { d with
      drawn := Function.update d.drawn position none
      table := d.table ++ [⟨message, createdAt, position, xid⟩]
      written := d.written ++ [⟨message, createdAt, position, xid⟩] } r → d.Spent r := by
    rintro r ⟨hwritten, hcommitted, hgone⟩
    rcases List.mem_append.mp hwritten with hwritten | hr
    · exact ⟨hwritten, hcommitted, hgone.imp_left fun hgone htable =>
        hgone (List.mem_append_left _ htable)⟩
    · rw [List.mem_singleton.mp hr] at hcommitted
      exact absurd hcommitted.ended hrunning
  refine ⟨⟨?_, fun key => ?_, fun r hr => h.intact r (hspent r hr), h.bounds⟩, ?_⟩
  · constructor
    · exact h.rows.table.append_right _
    · intro r hr hr'
      exact (List.mem_append.mp hr).elim
        (fun hr => List.mem_append_left _ (h.rows.kept r hr hr')) (List.mem_append_right _)
    · rw [List.map_append]
      refine List.nodup_append.mpr ⟨h.rows.positions, List.nodup_singleton _, ?_⟩
      rintro _ hp p' hp' rfl
      obtain ⟨r, hr, rfl⟩ := List.mem_map.mp hp
      exact hfree r hr (by simpa using hp')
    · intro r hr
      rcases List.mem_append.mp hr with hr | hr
      · exact h.rows.position_lt r hr
      · rw [List.mem_singleton.mp hr]
        exact h.rows.drawn_lt position i hdrawn
    · intro p s hp
      dsimp only at hp
      by_cases heq : p = position
      · rw [heq, Function.update_self] at hp
        cases hp
      · rw [Function.update_of_ne heq] at hp
        exact h.rows.drawn_lt p s hp
    · intro r hr
      dsimp only
      rcases List.mem_append.mp hr with hr | hr
      · rw [Function.update_of_ne (hfree r hr)]
        exact h.rows.drawn_free r hr
      · rw [List.mem_singleton.mp hr]
        exact Function.update_self ..
    · intro r hr
      rcases List.mem_append.mp hr with hr | hr
      · exact h.rows.ids r hr
      · rw [List.mem_singleton.mp hr]
        exact (d.transactions.own_running i xid hown).1
    · intro r hr
      rcases List.mem_append.mp hr with hr | hr
      · exact h.rows.ids_pos r hr
      · rw [List.mem_singleton.mp hr]
        refine Nat.pos_of_ne_zero ?_
        rintro rfl
        exact hrunning d.transactions.zero_ended
    · intro r hr hr'
      rcases List.mem_append.mp hr with hr | hr
      · exact h.rows.here r hr hr'
      · rw [List.mem_singleton.mp hr]
        exact hhere xid hown
    · intro g s hheld r hr hgen
      rcases List.mem_append.mp hr with hr | hr
      · exact h.rows.partitions g s hheld r hr hgen
      · rw [List.mem_singleton.mp hr] at hgen ⊢
        rw [hgen, hheld] at hpartition
        rcases hpartition with hnone | hsome
        · cases hnone
        · exact Or.inr (Option.some.inj hsome ▸ hown)
  · refine (h.cells key).env (fun _ => id)
      (later_committed (i := i) _ (Transactions.Advances.refl i _) rfl hnew)
      (fun s row hlock hrow hsound => ?_) (fun _ _ => ⟨id, id⟩) fun r hr _ => Or.inl (hspent r hr)
    by_cases hs : s = i
    · subst hs
      obtain ⟨hepoch, hbegan, hhanding, _⟩ := hanew key row hlock hrow
      rw [Cell.beganNext, Cell.handedNext, hbegan, hhanding]
      obtain ⟨⟨delivered, epoch⟩, _, _⟩ := row
      cases hepoch
      exact Sound.fresh hsound.delivered_seen
    · exact hsound.mono (later_pending (i := i) _ (Transactions.Advances.refl i _) rfl hnew hs)
  · refine { Guarantee.refl o i d with
      written := ⟨_, rfl, fun r hr => ?_⟩
      table := fun r hr => ?_
      removed := fun r hr => Or.inl (List.mem_append_left _ hr)
      spent := fun r hr => Or.inl (hspent r hr)
      drawn := fun p s hs hp => ?_ }
    · rw [List.mem_singleton.mp hr]
      exact ⟨hown, hrunning, hpartition⟩
    · refine (List.mem_append.mp hr).imp_right fun hr => ⟨List.mem_append_right _ hr, ?_⟩
      rw [List.mem_singleton.mp hr]
      exact hnotin
    · by_cases heq : p = position
      · rw [heq, hdrawn] at hp
        exact absurd (Option.some.inj hp).symm hs
      · dsimp only
        rw [Function.update_of_ne heq]
        exact hp

end Rows

section Cells

variable {key : PositionKey} {c : Cell}

@[simp] theorem setCell_self : (d.setCell key c).cells key = c := Function.update_self ..

theorem setCell_of_ne {key' : PositionKey} (hne : key' ≠ key) :
    (d.setCell key c).cells key' = d.cells key' := Function.update_of_ne hne ..

/-- A write of a position row the session holds, or of one nobody holds. -/
structure Writes (o : PgOutbox) (fair : Nat → Prop) (d : Database) (i : Nat) (key : PositionKey)
    (c : Cell) : Prop where
  ok : CellOk o fair d key c
  before : (d.cells key).lock = none ∨ (d.cells key).lock = some i
  after : c.lock = none ∨ c.lock = some i
  committed : c.committed = (d.cells key).committed

theorem Consistent.setCells (h : Consistent o fair d) {cells : PositionKey → Cell}
    (hcells : ∀ key, cells key = d.cells key ∨ Writes o fair d i key (cells key)) :
    Kept o fair i d { d with cells } where
  consistent := by
    refine ⟨{ h.rows with }, fun key => ?_, h.intact, h.bounds⟩
    dsimp only
    rcases hcells key with hsame | hwrites
    · rw [hsame]
      exact { h.cells key with }
    · exact { hwrites.ok with }
  guarantee := by
    have hcommitted : ∀ key, (cells key).committed = (d.cells key).committed := fun key =>
      (hcells key).elim (congrArg _) Writes.committed
    refine { Guarantee.refl o i d with
      cells := fun key s hs hlock => ?_
      locks := fun key s hs hlock => ?_
      grows := fun key row hrow => ⟨row, (hcommitted key).trans hrow, Or.inl fun _ => id⟩
      created := fun key row hrow => Or.inl ?_ }
    · refine (hcells key).resolve_right fun hwrites => ?_
      rcases hwrites.before with hfree | hfree <;> rw [hfree] at hlock <;> cases hlock
      exact hs rfl
    · rcases hcells key with hsame | hwrites
      · exact hsame ▸ hlock
      · rcases hwrites.after with hfree | hfree <;> rw [hfree] at hlock <;> cases hlock
        exact absurd rfl hs
    · rw [← hcommitted key]
      exact Option.ne_none_iff_exists'.mpr ⟨row, hrow⟩

theorem Consistent.setCell (h : Consistent o fair d) (hwrites : Writes o fair d i key c) :
    Kept o fair i d (d.setCell key c) := by
  refine h.setCells fun key' => ?_
  by_cases hkey : key' = key
  · subst hkey
    rw [Function.update_self]
    exact Or.inr hwrites
  · rw [Function.update_of_ne hkey]
    exact Or.inl rfl

theorem Consistent.lockCell (h : Consistent o fair d) {d' : Database} {row : PositionRow}
    (hlock : d.lockCell i key = some (d', row)) :
    Kept o fair i d d' ∧ d' = d.setCell key { d.cells key with lock := some i } ∧
      ((d.cells key).lock = none ∨ (d.cells key).lock = some i) ∧
      (d.cells key).pending.or (d.cells key).committed = some row := by
  rw [Database.lockCell] at hlock
  split at hlock
  · rename_i hguard
    obtain ⟨row', hrow, heq⟩ := Option.map_eq_some_iff.mp hlock
    cases heq
    refine ⟨h.setCell ⟨?_, hguard, Or.inr rfl, rfl⟩, rfl, hguard, hrow⟩
    have hcell := h.cells key
    rcases hguard with hfree | hmine
    · obtain ⟨hpending, hcalling⟩ := hcell.unlocked hfree
      obtain ⟨hanew, _⟩ := hcell.unwritten hpending
      refine { hcell with
        present := fun hkey => ?_
        unlocked := nofun
        pending_sound := fun s _ _ hrow' => ?_
        anew_held := fun s _ hne => absurd hanew hne }
      · rw [hpending, (hcell.present hkey).1] at hrow
        cases hrow
      · rw [hpending] at hrow'
        cases hrow'
    · rw [← hmine]
      exact hcell
  · cases hlock

theorem Database.lockCell_cells {d' : Database}
    (hd : d' = d.setCell key { d.cells key with lock := some i }) (key' : PositionKey) :
    (d'.cells key').pending = (d.cells key').pending ∧
      (d'.cells key').committed = (d.cells key').committed ∧
      (d'.cells key').anew = (d.cells key').anew ∧
      (d'.cells key').handing = (d.cells key').handing ∧
      (d'.cells key').calling = (d.cells key').calling ∧
      ((d'.cells key').lock = (d.cells key').lock ∨ key' = key ∧ (d'.cells key').lock = some i) := by
  rw [hd]
  by_cases hkey : key' = key
  · rw [hkey, setCell_self]
    exact ⟨rfl, rfl, rfl, rfl, rfl, Or.inr ⟨rfl, rfl⟩⟩
  · rw [setCell_of_ne hkey]
    exact ⟨rfl, rfl, rfl, rfl, rfl, Or.inl rfl⟩

theorem Consistent.keys (h : Consistent o fair d) (keys : List PositionKey)
    (hkeys : ∀ k ∈ d.keys, k ∈ keys) : Consistent o fair { d with keys } :=
  ⟨{ h.rows with }, fun k => { h.cells k with
    present := fun hk => (h.cells k).present fun hmem => hk (hkeys k hmem) }, h.intact, h.bounds⟩

theorem PairBelow.created {delivered : Snapshot} : (PositionRow.created delivered).PairBelow := by
  intro r hr
  refine Or.inl (Nat.pos_of_ne_zero fun hzero => hr (Or.inl ?_))
  exact Snapshot.visible_of_lt_xmin (hzero ▸ delivered.xmin_pos)

/-- The pair a write of the new code keeps up. -/
theorem PairBelow.kept {row : PositionRow}
    (hpair : row.lastProcessedTransactionId = row.delivered.xmin - 1) : row.PairBelow := by
  intro r hr
  have hle := Snapshot.xmin_le_of_not_visible (s := row.delivered) (x := r.transactionId)
    (Bool.not_eq_true _ ▸ fun hvisible => hr (Or.inl hvisible))
  have := row.delivered.xmin_pos
  exact Or.inl (by omega)

theorem Database.createCell_eq {delivered : Snapshot} {d' : Database}
    (h : d.createCell i key delivered = some d') :
    d' = d ∨ (d.cells key).committed = none ∧ (d.cells key).lock = none ∧
      d' = { d.setCell key { d.cells key with
        pending := some (.created delivered)
        lock := some i
        anew := some ⟨delivered, none⟩ } with keys := key :: d.keys } := by
  rw [Database.createCell] at h
  split at h
  · cases h
    exact Or.inl rfl
  · rename_i habsent
    split at h
    · rename_i hfree
      cases h
      refine Or.inr ⟨?_, hfree, rfl⟩
      cases hcommitted : (d.cells key).committed with
      | none => rfl
      | some row => exact absurd (Or.inl (by rw [hcommitted]; rfl)) habsent
    · cases h

theorem Consistent.createCell (h : Consistent o fair d) {delivered : Snapshot} {d' : Database}
    (hheld : d.reclamationKey.Holds i) (hrecent : d.Recent i fair delivered)
    (hcreate : d.createCell i key delivered = some d') : Kept o fair i d d' := by
  rcases Database.createCell_eq hcreate with rfl | ⟨hnone, hfree, rfl⟩
  · exact .refl h i
  · obtain ⟨hpending, hcalling⟩ := (h.cells key).unlocked hfree
    obtain ⟨_, hhanding⟩ := (h.cells key).unwritten hpending
    have hcell : CellOk o fair { d with keys := key :: d.keys } key { d.cells key with
        pending := some (.created delivered)
        lock := some i
        anew := some ⟨delivered, none⟩ } := by
      constructor
      · exact fun hkey => absurd List.mem_cons_self hkey
      · exact nofun
      · exact nofun
      · intro row hrow
        rw [hnone] at hrow
        cases hrow
      · intro s row hs hrow
        cases hs
        cases hrow
        rw [Cell.beganNext, Cell.handedNext, hhanding]
        exact Sound.fresh hrecent.1
      · exact nofun
      · intro s hs _
        cases hs
        exact ⟨hheld, fun hne => absurd hnone hne⟩
      · intro row hrow
        rw [hnone] at hrow
        cases hrow
      · intro row hrow
        cases hrow
        exact hrecent.2
      · intro row hrow
        rw [hnone] at hrow
        cases hrow
      · intro row hrow
        cases hrow
        exact PairBelow.created
    have hkept := (h.keys (key :: d.keys) fun _ => List.mem_cons_of_mem _).setCell
      (i := i) ⟨hcell, Or.inl hfree, Or.inr rfl, rfl⟩
    exact ⟨hkept.consistent, { hkept.guarantee with }⟩

/-- The version a locked row is read in has delivered every spent row. -/
theorem Consistent.hasRow_spares (h : Consistent o fair d) {row : PositionRow}
    (hrow : d.HasRow i key row) : d.Spares fair row := by
  rcases Option.or_eq_some_iff.mp hrow.2 with hpending | ⟨_, hcommitted⟩
  · exact (h.cells key).pending_spares row hpending
  · exact (h.cells key).committed_spares row hcommitted

/-- Without rows of its own, a session may count a locked row's handed rows as the committed
ones are. -/
theorem Consistent.hasRow_sound (h : Consistent o fair d) {row : PositionRow}
    (hrow : d.HasRow i key row) (hrowless : d.Rowless i) :
    Sound o fair key d.written (d.Sees i) (d.Live i) row.toPosition (d.cells key).beganNext
      (d.cells key).handedNext := by
  rcases Option.or_eq_some_iff.mp hrow.2 with hpending | ⟨hnone, hcommitted⟩
  · exact (h.cells key).pending_sound i row hrow.1 hpending
  · obtain ⟨hanew, hhanding⟩ := (h.cells key).unwritten hnone
    rw [Cell.beganNext, Cell.handedNext, hanew, hhanding, List.append_nil]
    refine ((h.cells key).committed_sound row hcommitted).mono ⟨fun _ => id, fun x hx => ?_,
      fun _ _ => Or.inl, fun r hr hlive _ => ⟨hr, hlive.resolve_right fun hown => ?_⟩⟩
    · exact Database.sees_iff.mpr (Or.inl hx)
    · exact hrowless _ hown r hr rfl

theorem Consistent.acknowledge (h : Consistent o fair d) {row row' : PositionRow}
    (hrow : d.HasRow i key row)
    (hsound : Sound o fair key d.written (d.Sees i) (d.Live i) row'.toPosition (d.cells key).beganNext
      ((d.cells key).handedNext ++ (d.cells key).calling))
    (hgrows : ∀ x, row.delivered.visible x → row'.delivered.visible x) (hpair : row'.PairBelow) :
    Writes o fair d i key { d.cells key with
      pending := some row'
      handing := (d.cells key).handing ++ (d.cells key).calling
      calling := [] } where
  ok :=
    { h.cells key with
      unlocked := fun hfree => absurd (hrow.1.symm.trans hfree) nofun
      unwritten := nofun
      pending_sound := fun s _ hs hrow' => by
        cases hrow'
        rw [hrow.1, Option.some.injEq] at hs
        subst hs
        rw [Cell.handedNext, ← List.append_assoc]
        exact hsound
      grown := fun _ hrow' hanew => by
        cases hrow'
        rcases Option.or_eq_some_iff.mp hrow.2 with hpending | ⟨_, hcommitted⟩
        · obtain ⟨before, hbefore, hle⟩ := (h.cells key).grown row hpending hanew
          exact ⟨before, hbefore, fun x hx => hgrows x (hle x hx)⟩
        · exact ⟨row, hcommitted, hgrows⟩
      pending_spares := fun _ hrow' r hr hfair => by
        cases hrow'
        exact hgrows _ (h.hasRow_spares hrow r hr hfair)
      pending_pair := fun _ hrow' => by
        cases hrow'
        exact hpair }
  before := Or.inr hrow.1
  after := Or.inr hrow.1
  committed := rfl

theorem Consistent.move (h : Consistent o fair d) {row row' : PositionRow}
    (hfree : (d.cells key).lock = none ∨ (d.cells key).lock = some i)
    (hrow : (d.cells key).pending.or (d.cells key).committed = some row)
    (hheld : d.Exclusive i) (hepoch : row'.epoch = none)
    (hseen : ∀ x, row'.delivered.visible x → d.Sees i x) (hspares : d.Spares fair row')
    (hpair : row'.PairBelow) : Kept o fair i d (d.move i key row') := by
  refine h.setCell ⟨?_, hfree, Or.inr rfl, rfl⟩
  refine { h.cells key with
    present := fun hkey => ?_
    unlocked := nofun
    unwritten := nofun
    pending_sound := fun s _ hs hrow' => ?_
    grown := nofun
    anew_held := fun s hs _ => ?_
    pending_spares := fun _ hrow' => ?_
    pending_pair := fun _ hrow' => ?_ }
  · obtain ⟨hcommitted, hlock⟩ := (h.cells key).present hkey
    rw [hcommitted, ((h.cells key).unlocked hlock).1] at hrow
    cases hrow
  · cases hs
    cases hrow'
    obtain ⟨⟨delivered, epoch⟩, _, _⟩ := row'
    cases hepoch
    exact Sound.fresh hseen
  · cases hs
    exact ⟨Or.inl hheld, fun _ => hheld⟩
  · cases hrow'
    exact hspares
  · cases hrow'
    exact hpair

theorem Database.lockCell_eq {d' : Database} {row : PositionRow}
    (hlock : d.lockCell i key = some (d', row)) :
    d' = d.setCell key { d.cells key with lock := some i } := by
  rw [Database.lockCell] at hlock
  split at hlock
  · obtain ⟨_, _, heq⟩ := Option.map_eq_some_iff.mp hlock
    cases heq
    rfl
  · cases hlock

/-- A move takes the row's lock as it writes it. -/
theorem Database.lockCell_move {d' : Database}
    (hd : d' = d.setCell key { d.cells key with lock := some i }) (row : PositionRow) :
    d'.move i key row = d.move i key row := by
  rw [hd, move, move, setCell_self, setCell, setCell, setCell, Function.update_idem]

theorem Consistent.call (h : Consistent o fair d) {row : Row} (hlock : (d.cells key).lock = some i) :
    Kept o fair i d (d.call key row) := by
  have hkept : Kept o fair i d (d.setCell key
      { d.cells key with calling := (d.cells key).calling ++ [row] }) := h.setCell
    ⟨{ h.cells key with unlocked := fun hfree => absurd (hlock.symm.trans hfree) nofun },
      Or.inr hlock, Or.inr hlock, rfl⟩
  exact ⟨⟨{ hkept.consistent.rows with }, fun k => { hkept.consistent.cells k with },
    hkept.consistent.intact, hkept.consistent.bounds⟩, { hkept.guarantee with }⟩

end Cells

end AsceticDdd.Outbox
