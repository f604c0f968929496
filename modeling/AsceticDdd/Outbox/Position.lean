import AsceticDdd.Outbox.Dispatch

/-!
# What a position says is done

A position is sound when every row it says is done was handed on since it began, or was done
where it began. The rows are all those ever written; `live` are the transactions whose rows
count, and `seen` those a snapshot may see. An epoch's start, a batch and its acknowledgement
keep a position sound.
-/

namespace AsceticDdd.Outbox

open Postgres

def Position.Passed (p : Position) (row : Row) : Prop :=
  p.delivered.visible row.transactionId ∨
    ∃ epoch, p.epoch = some epoch ∧ epoch.snapshot.visible row.transactionId ∧
      row.position ≤ epoch.offset

theorem Position.passed_epoch {delivered : Snapshot} {epoch : Epoch} {row : Row} :
    (Position.mk delivered (some epoch)).Passed row ↔ delivered.visible row.transactionId ∨
      epoch.snapshot.visible row.transactionId ∧ row.position ≤ epoch.offset := by
  simp [Passed]

theorem Position.passed_delivered {delivered : Snapshot} {row : Row} :
    (Position.mk delivered none).Passed row ↔ delivered.visible row.transactionId := by
  simp [Passed]

section

variable (o : PgOutbox) (fair : Nat → Prop) (key : PositionKey) (rows : List Row)
  (seen live : Nat → Prop)

/-- The epoch sees what was delivered, and its generations are those of its rows. -/
structure EpochSound (delivered : Snapshot) (epoch : Epoch) : Prop where
  seen_visible : ∀ x, epoch.snapshot.visible x → seen x
  grows : ∀ x, delivered.visible x → epoch.snapshot.visible x
  names : (epoch.generations.map (·.generation)).Nodup
  found : epoch.endAt ≠ none → ∀ r ∈ rows, live r.transactionId → fair r.transactionId →
    o.Covers key r → New delivered epoch.snapshot r → ∃ g ∈ epoch.generations,
      g.generation = o.generationOf r ∧ g.first ≤ r.position ∧ r.position ≤ g.last

structure Sound (p began : Position) (handed : List Row) : Prop where
  delivered_seen : ∀ x, p.delivered.visible x → seen x
  epoch_sound : ∀ e, p.epoch = some e → EpochSound o fair key rows seen live p.delivered e
  began_seen : ∀ r, began.Passed r → seen r.transactionId
  began_passed : ∀ r ∈ rows, live r.transactionId → o.Covers key r → began.Passed r → p.Passed r
  covered : ∀ r ∈ rows, live r.transactionId → fair r.transactionId → o.Covers key r →
    p.Passed r → r ∈ handed ∨ began.Passed r
  handed_spec : ∀ r ∈ handed, r ∈ rows ∧ live r.transactionId ∧ o.Covers key r ∧ p.Passed r ∧
    ¬began.Passed r
  nodup : handed.Nodup

end

variable {o : PgOutbox} {fair : Nat → Prop} {key : PositionKey} {rows : List Row}
variable {seen live : Nat → Prop}
variable {p began : Position} {handed : List Row}

theorem Sound.seen_of_passed (h : Sound o fair key rows seen live p began handed) {r : Row}
    (hr : p.Passed r) : seen r.transactionId := by
  rcases hr with hr | ⟨e, he, hr, _⟩
  · exact h.delivered_seen _ hr
  · exact (h.epoch_sound e he).seen_visible _ hr

/-- A position begun anew. -/
theorem Sound.fresh {delivered : Snapshot} (h : ∀ x, delivered.visible x → seen x) :
    Sound o fair key rows seen live ⟨delivered, none⟩ ⟨delivered, none⟩ [] where
  delivered_seen := h
  epoch_sound _ he := nomatch he
  began_seen _ hr := h _ (Position.passed_delivered.mp hr)
  began_passed _ _ _ _ := id
  covered _ _ _ _ _ := Or.inr
  handed_spec _ hr := absurd hr List.not_mem_nil
  nodup := .nil

section Mono

variable {rows' : List Row} {seen' live' : Nat → Prop}

/-- What counts, and what is seen, may grow: but nothing that was seen begins to count. -/
structure Later (rows : List Row) (seen live : Nat → Prop) (rows' : List Row)
    (seen' live' : Nat → Prop) : Prop where
  mem : ∀ r ∈ rows, r ∈ rows'
  seen_sub : ∀ x, seen x → seen' x
  live_sub : ∀ r ∈ rows, live r.transactionId → live' r.transactionId
  back : ∀ r ∈ rows', live' r.transactionId → seen r.transactionId → r ∈ rows ∧ live r.transactionId

theorem Later.refl (rows : List Row) (seen live : Nat → Prop) : Later rows seen live rows seen live :=
  ⟨fun _ => id, fun _ => id, fun _ _ => id, fun _ hr hlive _ => ⟨hr, hlive⟩⟩

theorem Later.trans {rows'' : List Row} {seen'' live'' : Nat → Prop}
    (h : Later rows seen live rows' seen' live') (h' : Later rows' seen' live' rows'' seen'' live'') :
    Later rows seen live rows'' seen'' live'' where
  mem r hr := h'.mem r (h.mem r hr)
  seen_sub x hx := h'.seen_sub x (h.seen_sub x hx)
  live_sub r hr hlive := h'.live_sub r (h.mem r hr) (h.live_sub r hr hlive)
  back r hr hlive hseen :=
    have ⟨hr, hlive⟩ := h'.back r hr hlive (h.seen_sub _ hseen)
    h.back r hr hlive hseen

theorem EpochSound.mono {delivered : Snapshot} {epoch : Epoch}
    (h : EpochSound o fair key rows seen live delivered epoch)
    (hlater : Later rows seen live rows' seen' live') :
    EpochSound o fair key rows' seen' live' delivered epoch where
  seen_visible x hx := hlater.seen_sub x (h.seen_visible x hx)
  grows := h.grows
  names := h.names
  found hend r hr hlive hfair hcovers hnew :=
    have ⟨hr, hlive⟩ := hlater.back r hr hlive (h.seen_visible _ hnew.1)
    h.found hend r hr hlive hfair hcovers hnew

theorem Sound.mono (h : Sound o fair key rows seen live p began handed)
    (hlater : Later rows seen live rows' seen' live') :
    Sound o fair key rows' seen' live' p began handed where
  delivered_seen x hx := hlater.seen_sub x (h.delivered_seen x hx)
  epoch_sound e he := (h.epoch_sound e he).mono hlater
  began_seen r hr := hlater.seen_sub _ (h.began_seen r hr)
  began_passed r hr hlive hcovers hpassed :=
    have ⟨hr, hlive⟩ := hlater.back r hr hlive (h.began_seen r hpassed)
    h.began_passed r hr hlive hcovers hpassed
  covered r hr hlive hfair hcovers hpassed :=
    have ⟨hr, hlive⟩ := hlater.back r hr hlive (h.seen_of_passed hpassed)
    h.covered r hr hlive hfair hcovers hpassed
  handed_spec r hr :=
    have ⟨hrows, hlive, hrest⟩ := h.handed_spec r hr
    ⟨hlater.mem r hrows, hlater.live_sub r hrows hlive, hrest⟩
  nodup := h.nodup

end Mono

section Epoch

variable {delivered : Snapshot} {visible : List Row}

/-- The statement's rows are those that count, and none of a new one is missing. -/
structure Reads (fair : Nat → Prop) (rows : List Row) (live : Nat → Prop) (delivered : Snapshot)
    (visible : List Row) : Prop where
  mem : ∀ r ∈ visible, r ∈ rows ∧ live r.transactionId
  new : ∀ r ∈ rows, live r.transactionId → fair r.transactionId →
    delivered.visible r.transactionId = false → r ∈ visible
  nodup : visible.Nodup

theorem Reads.found (h : Reads fair rows live delivered visible) {epoch : Snapshot} {r : Row}
    (hr : r ∈ rows) (hlive : live r.transactionId) (hfair : fair r.transactionId)
    (hcovers : o.Covers key r) (hnew : New delivered epoch r) :
    ∃ g ∈ (o.startEpoch visible key delivered epoch).generations,
      g.generation = o.generationOf r ∧ g.first ≤ r.position ∧ r.position ≤ g.last :=
  PgOutbox.startEpoch_generations (h.new r hr hlive hfair hnew.2) hcovers hnew

/-- The bounds of a converted epoch are computed; nothing else of it changes. -/
theorem Sound.converted {e epoch : Epoch}
    (h : Sound o fair key rows seen live ⟨delivered, some e⟩ began handed)
    (hreads : Reads fair rows live delivered visible)
    (hepoch : PgOutbox.epochOf (o.startEpoch visible key delivered e.snapshot) (some e.offset) =
      some epoch) :
    Sound o fair key rows seen live ⟨delivered, some epoch⟩ began handed ∧ epoch.endAt ≠ none := by
  have hsame : epoch.snapshot = e.snapshot ∧ epoch.offset = e.offset ∧ epoch.endAt ≠ none ∧
      epoch.generations = (o.startEpoch visible key delivered e.snapshot).generations := by
    cases hepoch
    exact ⟨PgOutbox.startEpoch_epoch, rfl, nofun, rfl⟩
  obtain ⟨hsnapshot, hoffset, hend, hgenerations⟩ := hsame
  have hpassed : ∀ r, Position.Passed ⟨delivered, some epoch⟩ r ↔
      Position.Passed ⟨delivered, some e⟩ r := fun r => by
    rw [Position.passed_epoch, Position.passed_epoch, hsnapshot, hoffset]
  have he := h.epoch_sound e rfl
  refine ⟨?_, hend⟩
  constructor
  · exact h.delivered_seen
  · rintro _ ⟨⟩
    refine ⟨fun x hx => he.seen_visible x (hsnapshot ▸ hx), fun x hx => hsnapshot ▸ he.grows x hx,
      ?_, fun _ r hr hlive hfair hcovers hnew => ?_⟩
    · rw [hgenerations]
      exact PgOutbox.startEpoch_names
    · rw [hgenerations]
      rw [hsnapshot] at hnew
      exact hreads.found hr hlive hfair hcovers hnew
  · exact h.began_seen
  · exact fun r hr hlive hcovers hbegan => (hpassed r).mpr (h.began_passed r hr hlive hcovers hbegan)
  · exact fun r hr hlive hfair hcovers hr' => h.covered r hr hlive hfair hcovers ((hpassed r).mp hr')
  · intro r hr
    obtain ⟨hrows, hlive, hcovers, hr', hbegan⟩ := h.handed_spec r hr
    exact ⟨hrows, hlive, hcovers, (hpassed r).mpr hr', hbegan⟩
  · exact h.nodup

/-- A new epoch begins below its first row. -/
theorem Sound.opened {now : Snapshot} {epoch : Epoch}
    (h : Sound o fair key rows seen live ⟨delivered, none⟩ began handed)
    (hreads : Reads fair rows live delivered visible) (hseen : ∀ x, now.visible x → seen x)
    (hgrows : ∀ x, delivered.visible x → now.visible x)
    (hepoch : PgOutbox.epochOf (o.startEpoch visible key delivered now) none = some epoch) :
    Sound o fair key rows seen live ⟨delivered, some epoch⟩ began handed ∧ epoch.endAt ≠ none := by
  rw [PgOutbox.epochOf] at hepoch
  split at hepoch
  · rename_i first last hfirst hlast
    cases hepoch
    have hepochSound : EpochSound o fair key rows seen live delivered
        ⟨(o.startEpoch visible key delivered now).epoch, first - 1, some last,
          (o.startEpoch visible key delivered now).generations⟩ := by
      refine ⟨?_, ?_, PgOutbox.startEpoch_names, fun _ r hr hlive hfair hcovers hnew => ?_⟩
      · simpa using hseen
      · simpa using hgrows
      · exact hreads.found hr hlive hfair hcovers (by simpa using hnew)
    have hpassed : ∀ r ∈ rows, live r.transactionId → fair r.transactionId → o.Covers key r →
        Position.Passed ⟨delivered, some ⟨(o.startEpoch visible key delivered now).epoch, first - 1,
          some last, (o.startEpoch visible key delivered now).generations⟩⟩ r →
        Position.Passed ⟨delivered, none⟩ r := by
      intro r hr hlive hfair hcovers hr'
      rw [Position.passed_delivered]
      rw [Position.passed_epoch, PgOutbox.startEpoch_epoch] at hr'
      rcases hr' with hr' | ⟨hvisible, hoffset⟩
      · exact hr'
      · by_contra hnot
        obtain ⟨g, hg, _, hgfirst, _⟩ :=
          hreads.found hr hlive hfair hcovers ⟨hvisible, Bool.not_eq_true _ ▸ hnot⟩
        have := PgOutbox.startEpoch_first hg hfirst
        dsimp only at hoffset
        omega
    refine ⟨?_, nofun⟩
    constructor
    · exact h.delivered_seen
    · rintro _ ⟨⟩
      exact hepochSound
    · exact h.began_seen
    · intro r hr hlive hcovers hbegan
      exact Or.inl (Position.passed_delivered.mp (h.began_passed r hr hlive hcovers hbegan))
    · exact fun r hr hlive hfair hcovers hr' =>
        h.covered r hr hlive hfair hcovers (hpassed r hr hlive hfair hcovers hr')
    · intro r hr
      obtain ⟨hrows, hlive, hcovers, hr', hbegan⟩ := h.handed_spec r hr
      exact ⟨hrows, hlive, hcovers, Or.inl (Position.passed_delivered.mp hr'), hbegan⟩
    · exact h.nodup
  · cases hepoch

/-- An epoch with nothing of the selection's is delivered at once. -/
theorem Sound.idle {now : Snapshot} (h : Sound o fair key rows seen live ⟨delivered, none⟩ began handed)
    (hseen : ∀ x, now.visible x → seen x) (hgrows : ∀ x, delivered.visible x → now.visible x)
    (hnone : ∀ r ∈ rows, live r.transactionId → fair r.transactionId → o.Covers key r →
      ¬New delivered now r) :
    Sound o fair key rows seen live ⟨now, none⟩ began handed where
  delivered_seen := hseen
  epoch_sound _ he := nomatch he
  began_seen := h.began_seen
  began_passed r hr hlive hcovers hbegan := Position.passed_delivered.mpr
    (hgrows _ (Position.passed_delivered.mp (h.began_passed r hr hlive hcovers hbegan)))
  covered r hr hlive hfair hcovers hpassed := by
    apply h.covered r hr hlive hfair hcovers
    rw [Position.passed_delivered] at hpassed ⊢
    by_contra hnot
    exact hnone r hr hlive hfair hcovers ⟨hpassed, Bool.not_eq_true _ ▸ hnot⟩
  handed_spec r hr := by
    obtain ⟨hrows, hlive, hcovers, hr', hbegan⟩ := h.handed_spec r hr
    exact ⟨hrows, hlive, hcovers, Position.passed_delivered.mpr
      (hgrows _ (Position.passed_delivered.mp hr')), hbegan⟩
  nodup := h.nodup

theorem Reads.none_of_epochOf (h : Reads fair rows live delivered visible) {now : Snapshot}
    (hepoch : PgOutbox.epochOf (o.startEpoch visible key delivered now) none = none) :
    ∀ r ∈ rows, live r.transactionId → fair r.transactionId → o.Covers key r →
      ¬New delivered now r := by
  intro r hr hlive hfair hcovers hnew
  obtain ⟨g, hg, _⟩ := h.found hr hlive hfair hcovers hnew
  rw [PgOutbox.startEpoch_empty] at hg
  · cases hg
  · rw [PgOutbox.epochOf] at hepoch
    split at hepoch
    · cases hepoch
    · rename_i hneither
      by_contra hboth
      obtain ⟨hfirst, hlast⟩ := not_or.mp hboth
      obtain ⟨first, hfirst⟩ := Option.ne_none_iff_exists'.mp hfirst
      obtain ⟨last, hlast⟩ := Option.ne_none_iff_exists'.mp hlast
      exact hneither first last hfirst hlast

end Epoch

section Batch

variable (o fair key rows live) in
/-- The rows of the epoch past its offset in the order of their positions, none left out but after
a full batch. -/
structure BatchOf (delivered : Snapshot) (epoch : Epoch) (limit : Nat) (batch : List Row) : Prop where
  sorted : batch.Pairwise fun a b => a.position ≤ b.position
  nodup : batch.Nodup
  spec : ∀ r ∈ batch, r ∈ rows ∧ live r.transactionId ∧ o.Covers key r ∧
    New delivered epoch.snapshot r ∧ epoch.offset < r.position
  complete : ∀ r ∈ rows, live r.transactionId → fair r.transactionId → o.Covers key r →
    New delivered epoch.snapshot r → epoch.offset < r.position →
    r ∈ batch ∨ limit ≤ batch.length ∧ ∀ y ∈ batch, y.position ≤ r.position

variable {delivered : Snapshot} {epoch : Epoch} {limit : Nat} {batch visible : List Row}

theorem Reads.batchOf (h : Reads fair rows live delivered visible)
    (hepoch : EpochSound o fair key rows seen live delivered epoch) (hend : epoch.endAt ≠ none) :
    BatchOf o fair key rows live delivered epoch limit
      (o.readBatch visible key epoch delivered limit) where
  sorted := PgOutbox.readBatch_sorted
  nodup := PgOutbox.readBatch_nodup h.nodup hepoch.names
  spec r hr := by
    obtain ⟨hvisible, hcovers, hoffset, hnew⟩ := PgOutbox.mem_readBatch hr
    obtain ⟨hrows, hlive⟩ := h.mem r hvisible
    exact ⟨hrows, hlive, hcovers, hnew, hoffset⟩
  complete r hr hlive hfair hcovers hnew hoffset := by
    by_cases hin : r ∈ o.readBatch visible key epoch delivered limit
    · exact Or.inl hin
    · obtain ⟨hfull, hbefore⟩ := PgOutbox.readBatch_le h.nodup (h.new r hr hlive hfair hnew.2) hcovers
        hnew hoffset (hepoch.found hend r hr hlive hfair hcovers hnew) hin
      exact Or.inr ⟨hfull.ge, hbefore⟩

theorem BatchOf.mono {rows' : List Row} {seen' live' : Nat → Prop}
    (h : BatchOf o fair key rows live delivered epoch limit batch)
    (hepoch : ∀ x, epoch.snapshot.visible x → seen x)
    (hlater : Later rows seen live rows' seen' live') :
    BatchOf o fair key rows' live' delivered epoch limit batch where
  sorted := h.sorted
  nodup := h.nodup
  spec r hr :=
    have ⟨hrows, hlive, hrest⟩ := h.spec r hr
    ⟨hlater.mem r hrows, hlater.live_sub r hrows hlive, hrest⟩
  complete r hr hlive hfair hcovers hnew hoffset :=
    have ⟨hr, hlive⟩ := hlater.back r hr hlive (hepoch _ hnew.1)
    h.complete r hr hlive hfair hcovers hnew hoffset

theorem BatchOf.not_passed (h : BatchOf o fair key rows live delivered epoch limit batch) :
    ∀ r ∈ batch, ¬Position.Passed ⟨delivered, some epoch⟩ r := by
  intro r hr
  obtain ⟨_, _, _, hnew, hoffset⟩ := h.spec r hr
  rw [Position.passed_epoch, hnew.2]
  rintro (hfalse | ⟨_, hle⟩)
  · cases hfalse
  · omega

/-- The last row of a batch is past all of it. -/
theorem BatchOf.le_last (h : BatchOf o fair key rows live delivered epoch limit batch) {last : Row}
    (hlast : batch.getLast? = some last) : ∀ r ∈ batch, r.position ≤ last.position := by
  obtain ⟨front, rfl⟩ := List.getLast?_eq_some_iff.mp hlast
  intro r hr
  rcases List.mem_append.mp hr with hr | hr
  · exact (List.pairwise_append.mp h.sorted).2.2 r hr last List.mem_cons_self
  · rw [List.mem_singleton.mp hr]

theorem Sound.nodup_append (h : Sound o fair key rows seen live ⟨delivered, some epoch⟩ began handed)
    (hbatch : BatchOf o fair key rows live delivered epoch limit batch) : (handed ++ batch).Nodup := by
  refine List.nodup_append.mpr ⟨h.nodup, hbatch.nodup, ?_⟩
  rintro r hr _ hr' rfl
  exact hbatch.not_passed r hr' (h.handed_spec r hr).2.2.2.1

/-- What a batch hands on was not done before, and is done by a position past it. -/
theorem Sound.append {p' : Position}
    (h : Sound o fair key rows seen live ⟨delivered, some epoch⟩ began handed)
    (hbatch : BatchOf o fair key rows live delivered epoch limit batch)
    (hdelivered : ∀ x, p'.delivered.visible x → seen x)
    (hepoch : ∀ e, p'.epoch = some e → EpochSound o fair key rows seen live p'.delivered e)
    (hgrows : ∀ r, Position.Passed ⟨delivered, some epoch⟩ r → p'.Passed r)
    (hpast : ∀ r ∈ batch, p'.Passed r)
    (honly : ∀ r ∈ rows, live r.transactionId → fair r.transactionId → o.Covers key r → p'.Passed r →
      Position.Passed ⟨delivered, some epoch⟩ r ∨ r ∈ batch) :
    Sound o fair key rows seen live p' began (handed ++ batch) where
  delivered_seen := hdelivered
  epoch_sound := hepoch
  began_seen := h.began_seen
  began_passed r hr hlive hcovers hbegan := hgrows r (h.began_passed r hr hlive hcovers hbegan)
  covered r hr hlive hfair hcovers hpassed := by
    rcases honly r hr hlive hfair hcovers hpassed with hpassed | hin
    · exact (h.covered r hr hlive hfair hcovers hpassed).imp_left (List.mem_append_left _)
    · exact Or.inl (List.mem_append_right _ hin)
  handed_spec r hr := by
    rcases List.mem_append.mp hr with hr | hr
    · obtain ⟨hrows, hlive, hcovers, hpassed, hbegan⟩ := h.handed_spec r hr
      exact ⟨hrows, hlive, hcovers, hgrows r hpassed, hbegan⟩
    · obtain ⟨hrows, hlive, hcovers, hnew, hoffset⟩ := hbatch.spec r hr
      refine ⟨hrows, hlive, hcovers, hpast r hr, fun hbegan => ?_⟩
      exact hbatch.not_passed r hr (h.began_passed r hrows hlive hcovers hbegan)
  nodup := h.nodup_append hbatch

/-- A short batch leaves nothing of the epoch: `delivered` moves to it. -/
theorem Sound.drained (h : Sound o fair key rows seen live ⟨delivered, some epoch⟩ began handed)
    (hbatch : BatchOf o fair key rows live delivered epoch limit batch) (hshort : batch.length < limit) :
    Sound o fair key rows seen live ⟨epoch.snapshot, none⟩ began (handed ++ batch) := by
  have he := h.epoch_sound epoch rfl
  refine h.append hbatch he.seen_visible (fun _ he => nomatch he) (fun r hr => ?_) (fun r hr => ?_)
    (fun r hr hlive hfair hcovers hpassed => ?_)
  · rw [Position.passed_delivered]
    rcases Position.passed_epoch.mp hr with hr | hr
    · exact he.grows _ hr
    · exact hr.1
  · exact Position.passed_delivered.mpr (hbatch.spec r hr).2.2.2.1.1
  · rw [Position.passed_delivered] at hpassed
    rw [Position.passed_epoch]
    by_cases hdelivered : delivered.visible r.transactionId
    · exact Or.inl (Or.inl hdelivered)
    · by_cases hoffset : r.position ≤ epoch.offset
      · exact Or.inl (Or.inr ⟨hpassed, hoffset⟩)
      · rcases hbatch.complete r hr hlive hfair hcovers ⟨hpassed, Bool.not_eq_true _ ▸ hdelivered⟩
          (not_le.mp hoffset) with hin | ⟨hfull, _⟩
        · exact Or.inr hin
        · omega

/-- A full batch moves the offset to its last row. -/
theorem Sound.advanced (h : Sound o fair key rows seen live ⟨delivered, some epoch⟩ began handed)
    (hpositions : ∀ r ∈ rows, ∀ r' ∈ rows, r.position = r'.position → r = r')
    (hbatch : BatchOf o fair key rows live delivered epoch limit batch) {last : Row}
    (hlast : batch.getLast? = some last) :
    Sound o fair key rows seen live ⟨delivered, some { epoch with offset := last.position }⟩ began
      (handed ++ batch) := by
  have he := h.epoch_sound epoch rfl
  have hmem : last ∈ batch := List.mem_of_getLast? hlast
  have hspec := hbatch.spec last hmem
  refine h.append hbatch h.delivered_seen ?_ (fun r hr => ?_) (fun r hr => ?_)
    (fun r hr hlive hfair hcovers hpassed => ?_)
  · rintro _ ⟨⟩
    exact ⟨he.seen_visible, he.grows, he.names, he.found⟩
  · rw [Position.passed_epoch] at hr ⊢
    exact hr.imp_right fun hr => ⟨hr.1, hr.2.trans (le_of_lt hspec.2.2.2.2)⟩
  · rw [Position.passed_epoch]
    exact Or.inr ⟨(hbatch.spec r hr).2.2.2.1.1, hbatch.le_last hlast r hr⟩
  · rw [Position.passed_epoch] at hpassed ⊢
    rcases hpassed with hpassed | ⟨hvisible, hle⟩
    · exact Or.inl (Or.inl hpassed)
    · by_cases hdelivered : delivered.visible r.transactionId
      · exact Or.inl (Or.inl hdelivered)
      · by_cases hoffset : r.position ≤ epoch.offset
        · exact Or.inl (Or.inr ⟨hvisible, hoffset⟩)
        · rcases hbatch.complete r hr hlive hfair hcovers ⟨hvisible, Bool.not_eq_true _ ▸ hdelivered⟩
            (not_le.mp hoffset) with hin | ⟨_, hbefore⟩
          · exact Or.inr hin
          · have hsame : r.position = last.position := le_antisymm hle (hbefore last hmem)
            exact Or.inr (hpositions r hr last hspec.1 hsame ▸ hmem)

/-- The acknowledgement of a batch of at least one row's limit. -/
theorem Sound.ackBatch {row : PositionRow}
    (h : Sound o fair key rows seen live ⟨row.delivered, some epoch⟩ began handed)
    (hpositions : ∀ r ∈ rows, ∀ r' ∈ rows, r.position = r'.position → r = r')
    (hbatch : BatchOf o fair key rows live row.delivered epoch limit batch) (hlimit : 0 < limit) :
    Sound o fair key rows seen live (PgOutbox.ackBatch row epoch batch limit).toPosition began
      (handed ++ batch) := by
  rw [PgOutbox.ackBatch]
  split
  · exact h.drained hbatch ‹_›
  · rename_i hfull
    cases hlast : batch.getLast? with
    | none =>
      rw [List.getLast?_eq_none_iff.mp hlast, List.length_nil] at hfull
      exact absurd hlimit hfull
    | some last => exact h.advanced hpositions hbatch hlast

theorem ackBatch_grows {row : PositionRow} (hgrows : ∀ x, row.delivered.visible x → epoch.snapshot.visible x)
    (x : Nat) (hx : row.delivered.visible x) :
    (PgOutbox.ackBatch row epoch batch limit).delivered.visible x := by
  rw [PgOutbox.ackBatch]
  split
  · exact hgrows x hx
  · exact hx

end Batch

end AsceticDdd.Outbox
