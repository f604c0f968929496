import AsceticDdd.Outbox.Serving

/-!
# The calls of the subscriber

What a position's row says was handed on, and what its locker has handed on since, are calls that
were made. Where nobody moves a position, and no dispatch rolls back after a call of its
subscriber, they are all of the calls, each once.
-/

namespace AsceticDdd.Outbox

open Postgres Interleaving

/-- What was handed on of a position, up to the last call. -/
def Cell.log (c : Cell) : List Row := c.handed ++ (c.handing ++ c.calling)

namespace Database

variable (d : Database)

/-- What a position's row says was handed on, the subscriber was called with. -/
def Called : Prop := ∀ key, ∀ r ∈ (d.cells key).log, ⟨key, r⟩ ∈ d.calls

/-- The calls made of a position. -/
def callsOf (key : PositionKey) : List Row :=
  d.calls.filterMap fun call => if call.key = key then some call.row else none

end Database

variable {o : PgOutbox} {fair : Nat → Prop} {d d' : Database} {s : Nat} {w w' : World}

section Log

variable {key : PositionKey} {row : PositionRow}

theorem setCell_log {c : Cell} (h : c.log = (d.cells key).log) (key' : PositionKey) :
    ((d.setCell key c).cells key').log = (d.cells key').log := by
  by_cases hkey : key' = key
  · rw [hkey, setCell_self, h]
  · rw [setCell_of_ne hkey]

theorem lockCell_log (h : d.lockCell s key = some (d', row)) (key' : PositionKey) :
    (d'.cells key').log = (d.cells key').log := by
  rw [Database.lockCell_eq h]
  exact setCell_log (by rfl) key'

theorem createCell_log {delivered : Snapshot} (h : d.createCell s key delivered = some d')
    (key' : PositionKey) : (d'.cells key').log = (d.cells key').log := by
  rcases Database.createCell_eq h with rfl | ⟨_, _, rfl⟩
  · rfl
  · exact setCell_log (by rfl) key'

theorem advanced_log (key : PositionKey) : (o.advanced d s key).log = (d.cells key).log := by
  rw [PgOutbox.advanced]
  split
  · rfl
  · split <;> rfl

theorem acknowledge_log (key' : PositionKey) :
    ((d.acknowledge key row).cells key').log = (d.cells key').log := by
  refine setCell_log ?_ key'
  simp only [Cell.log, List.append_nil]

theorem Cell.finish_log {c : Cell} {commits : Bool} : (c.finish s commits).log ⊆ c.log := by
  rcases Cell.finish_cases c s commits with ⟨_, heq⟩ | ⟨_, _, heq⟩ | ⟨_, _, _, _, heq⟩ <;>
    rw [heq]
  · exact List.Subset.refl _
  · simp [Cell.log]
  · intro r hr
    simp only [Cell.log, Cell.handedNext, List.append_nil, List.mem_append] at hr ⊢
    split at hr
    · exact Or.inr (Or.inl (hr.resolve_left List.not_mem_nil))
    · exact hr.imp_right Or.inl

theorem call_called (h : d.Called) {message : Row} : (d.call key message).Called := by
  intro key' r hr
  rw [Database.call] at hr ⊢
  by_cases hkey : key' = key
  · rw [hkey, setCell_self, Cell.log, ← List.append_assoc, ← List.append_assoc] at hr
    rw [hkey]
    refine List.mem_append.mpr ((List.mem_append.mp hr).imp (fun hr => h key r ?_) fun hr => ?_)
    · rwa [Cell.log, ← List.append_assoc]
    · rw [List.mem_singleton.mp hr]
      exact List.mem_singleton_self _
  · rw [setCell_of_ne hkey] at hr
    exact List.mem_append_left _ (h key' r hr)

end Log

/-- Every step records the calls it makes. -/
theorem Effect.called {p : Process} {a : Act} (h : Effect o s d p a d') (hcalled : d.Called) :
    d'.Called := by
  cases h with
  | draw hdraw =>
    obtain ⟨_, rfl⟩ := Database.draw_eq hdraw
    exact hcalled
  | insert hinsert =>
    obtain ⟨_, _, _, rfl⟩ := Database.insert_eq hinsert
    exact hcalled
  | lock hlock =>
    intro key r hr
    rw [lockCell_log hlock] at hr
    rw [Database.lockCell_eq hlock]
    exact hcalled key r hr
  | lockRefuse hlock =>
    intro key r hr
    have hr : r ∈ (d.cells key).log := lockCell_log hlock key ▸ hr
    rw [Database.lockCell_eq hlock]
    exact hcalled key r hr
  | create _ hcreate =>
    intro key r hr
    rw [createCell_log hcreate] at hr
    rcases Database.createCell_eq hcreate with rfl | ⟨_, _, rfl⟩ <;> exact hcalled key r hr
  | advance hadvance =>
    rw [PgOutbox.advance_eq hadvance]
    intro key r hr
    exact hcalled key r (advanced_log key ▸ hr)
  | move hlock =>
    rename_i key' _ _ _
    intro key r hr
    rw [Database.move] at hr
    refine hcalled key r ?_
    by_cases hkey : key = key'
    · rw [hkey, setCell_self] at hr
      rw [hkey]
      exact List.mem_append_left _ (by simpa [Cell.log] using hr)
    · rwa [setCell_of_ne hkey] at hr
  | call => exact call_called hcalled
  | acknowledge =>
    intro key' r hr
    rw [acknowledge_log] at hr
    exact hcalled key' r hr
  | finish commits => exact fun key r hr => hcalled key r (Cell.finish_log hr)
  | emptied => exact fun key r hr => hcalled key r (Cell.finish_log hr)
  | recorded => exact fun key r hr => hcalled key r (Cell.finish_log hr)
  | copied => exact fun key r hr => hcalled key r (Cell.finish_log hr)
  | _ => exact hcalled

/-- The calls of a position are what was handed on of it, where nobody moved one. -/
structure Logged (d : Database) : Prop where
  calls : ∀ key, d.callsOf key = (d.cells key).log
  unborn : ∀ key, (d.cells key).committed = none → (d.cells key).handed = []
  unmoved : ∀ key, (d.cells key).anew ≠ none → (d.cells key).committed = none

/-- What is written of a row is committed or dropped only once it is acknowledged. -/
theorem acknowledged_of_commit {p next : Process} (hok : p.Ok o fair d s)
    (hstep : Step o s d p .commit d' next) : d.Acknowledged s := by
  cases hstep with
  | start h => cases h
  | produce h => exact fun key hlock => (hok.1.uncalled key hlock).1
  | commit h =>
    unfold PgOutbox.commit at h
    split at h
    · exact fun key hlock => absurd hlock (hok key)
    · exact hok.2.2
    · exact fun key hlock => absurd hlock (hok.2.1 key)
    · exact fun key hlock => absurd hlock (hok.2.1 key)
    · exact fun key hlock => (hok.2.1 key hlock).1
    · exact fun key hlock => (hok.2.1 key hlock).1
    · exact fun key hlock => (hok.2.1 key hlock).1
    · cases h

namespace Logged

theorem of_cells (h : Logged d) (hcalls : d'.calls = d.calls)
    (hcells : ∀ key, (d'.cells key).log = (d.cells key).log ∧
      ((d'.cells key).committed = none → (d'.cells key).handed = []) ∧
      ((d'.cells key).anew ≠ none → (d'.cells key).committed = none)) : Logged d' where
  calls key := by
    rw [(hcells key).1, ← h.calls key, Database.callsOf, Database.callsOf, hcalls]
  unborn key := (hcells key).2.1
  unmoved key := (hcells key).2.2

theorem setCell (h : Logged d) {key : PositionKey} {c : Cell} (hlog : c.log = (d.cells key).log)
    (hhanded : c.handed = (d.cells key).handed) (hcommitted : c.committed = (d.cells key).committed)
    (hanew : c.anew = (d.cells key).anew ∨ c.committed = none) : Logged (d.setCell key c) := by
  refine h.of_cells rfl fun key' => ?_
  by_cases hkey : key' = key
  · rw [hkey, setCell_self, hhanded, hcommitted]
    refine ⟨hlog, h.unborn key, fun hne => ?_⟩
    rcases hanew with hanew | hnone
    · exact h.unmoved key (hanew ▸ hne)
    · exact hcommitted ▸ hnone
  · rw [setCell_of_ne hkey]
    exact ⟨rfl, h.unborn key', h.unmoved key'⟩

theorem lock (h : Logged d) {key : PositionKey} {row : PositionRow}
    (hlock : d.lockCell s key = some (d', row)) : Logged d' := by
  rw [Database.lockCell_eq hlock]
  exact h.setCell rfl rfl rfl (Or.inl rfl)

theorem create (h : Logged d) {key : PositionKey} {delivered : Snapshot}
    (hcreate : d.createCell s key delivered = some d') : Logged d' := by
  rcases Database.createCell_eq hcreate with rfl | ⟨hnone, _, rfl⟩
  · exact h
  · have hset : Logged (d.setCell key { d.cells key with
        pending := some (.created delivered)
        lock := some s
        anew := some ⟨delivered, none⟩ }) := h.setCell rfl rfl rfl (Or.inr hnone)
    exact hset.of_cells rfl fun key => ⟨rfl, hset.unborn key, hset.unmoved key⟩

theorem advance (h : Logged d) (hadvance : o.advance d s = some d') : Logged d' := by
  rw [PgOutbox.advance_eq hadvance]
  refine h.of_cells rfl fun key => ⟨advanced_log key, ?_⟩
  dsimp only
  rw [PgOutbox.advanced]
  split
  · exact ⟨h.unborn key, h.unmoved key⟩
  · split
    · exact ⟨h.unborn key, h.unmoved key⟩
    · exact ⟨h.unborn key, h.unmoved key⟩

theorem call (h : Logged d) {key : PositionKey} {message : Row} : Logged (d.call key message) where
  calls key' := by
    rw [Database.callsOf, Database.call, List.filterMap_append]
    change d.callsOf key' ++ _ = _
    rw [h.calls]
    by_cases hkey : key' = key
    · rw [hkey, setCell_self, List.filterMap_cons, if_pos rfl]
      simp [Cell.log]
    · rw [setCell_of_ne hkey, List.filterMap_cons, if_neg (Ne.symm hkey)]
      simp
  unborn key' := by
    rw [Database.call]
    by_cases hkey : key' = key
    · rw [hkey, setCell_self]
      exact h.unborn key
    · rw [setCell_of_ne hkey]
      exact h.unborn key'
  unmoved key' := by
    rw [Database.call]
    by_cases hkey : key' = key
    · rw [hkey, setCell_self]
      exact h.unmoved key
    · rw [setCell_of_ne hkey]
      exact h.unmoved key'

theorem finish (h : Logged d) (hd : Consistent o fair d) {commits : Bool}
    (hacknowledged : d.Acknowledged s) (huncalled : commits = false → d.Uncalled s) (key : PositionKey) :
    ((d.cells key).finish s commits).log = (d.cells key).log ∧
      (((d.cells key).finish s commits).committed = none →
        ((d.cells key).finish s commits).handed = []) ∧
      (((d.cells key).finish s commits).anew ≠ none →
        ((d.cells key).finish s commits).committed = none) := by
  rcases Cell.finish_cases (d.cells key) s commits with ⟨_, heq⟩ | ⟨hlock, hdrop, heq⟩ |
    ⟨row, hlock, _, _, heq⟩ <;> rw [heq]
  · exact ⟨rfl, h.unborn key, h.unmoved key⟩
  · have hhanding : (d.cells key).handing = [] :=
      hdrop.elim (fun hdrop => (huncalled hdrop key hlock).2)
        fun hnone => ((hd.cells key).unwritten hnone).2
    refine ⟨?_, h.unborn key, nofun⟩
    simp [Cell.log, hhanding, hacknowledged key hlock]
  · refine ⟨?_, nofun, nofun⟩
    rw [Cell.log, Cell.log, Cell.handedNext, hacknowledged key hlock]
    split
    · rename_i hanew
      simp [h.unborn key (h.unmoved key (Option.isSome_iff_ne_none.mp hanew))]
    · simp

/-- Every step but a move keeps the log of the calls. -/
theorem step (h : Logged d) (hd : Consistent o fair d) {p next : Process} {a : Act}
    (hok : p.Ok o fair d s) (hmoves : ¬p.Moves) (hcompletes : a = .rollback → d.Uncalled s)
    (hstep : Step o s d p a d' next) : Logged d' := by
  have hcommit : a = .commit → d.Acknowledged s := by
    rintro rfl
    exact acknowledged_of_commit hok hstep
  cases hstep.effect with
  | draw hdraw =>
    obtain ⟨_, rfl⟩ := Database.draw_eq hdraw
    exact { h with }
  | insert hinsert =>
    obtain ⟨_, _, _, rfl⟩ := Database.insert_eq hinsert
    exact { h with }
  | lock hlock => exact h.lock hlock
  | lockRefuse hlock => exact { h.lock hlock with }
  | create _ hcreate => exact h.create hcreate
  | advance hadvance => exact h.advance hadvance
  | move _ => exact absurd trivial hmoves
  | call => exact h.call
  | acknowledge =>
    exact h.setCell (by simp only [Cell.log, List.append_nil]) rfl rfl (Or.inl rfl)
  | finish commits hact =>
    cases commits with
    | true => exact h.of_cells rfl (h.finish hd (hcommit hact) nofun)
    | false =>
      have huncalled := hcompletes hact
      exact h.of_cells rfl (h.finish hd (fun key hlock => (huncalled key hlock).1) fun _ => huncalled)
  | emptied => exact h.of_cells rfl (h.finish hd (hcommit rfl) nofun)
  | recorded => exact h.of_cells rfl (h.finish hd (hcommit rfl) nofun)
  | copied => exact h.of_cells rfl (h.finish hd (hcommit rfl) nofun)
  | _ => exact { h with }

end Logged

end AsceticDdd.Outbox
