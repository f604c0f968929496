import AsceticDdd.Control.Except
import AsceticDdd.EventStore.Store
import Mathlib.Data.List.Basic
import Mathlib.Tactic.Push

/-!
# A stream is one history

The rows that a transaction has written to a stream come right after the committed ones, and no
other transaction has written to it. So what commits is the stream's next events.
-/

namespace AsceticDdd.EventStore

variable {σ E V B : Type} {rows rows' : List (Row σ B)} {stream : σ}

/-- `k` positions after `n`. -/
def upto (n : Int) (k : Nat) : List Int := (List.range k).map fun i : Nat => n + 1 + (i : Int)

theorem mem_upto {n p : Int} {k : Nat} : p ∈ upto n k ↔ n < p ∧ p ≤ n + k := by
  simp only [upto, List.mem_map, List.mem_range]
  constructor
  · rintro ⟨i, hi, rfl⟩
    omega
  · rintro ⟨hlt, hle⟩
    exact ⟨(p - n - 1).toNat, by omega, by omega⟩

theorem upto_succ (n : Int) (k : Nat) : upto n (k + 1) = upto n k ++ [n + 1 + k] := by
  simp [upto, List.range_succ]

theorem upto_append (n : Int) (k l : Nat) : upto n k ++ upto (n + k) l = upto n (k + l) := by
  induction l with
  | zero => simp [upto]
  | succ l ih =>
    rw [upto_succ, ← List.append_assoc, ih, ← Nat.add_assoc, upto_succ]
    congr 2
    omega

/-- Each row's cause is the event before it, the first one's what is given. -/
def Caused (cause : Option String) : List (Row σ B) → Prop
  | [] => True
  | row :: rest => row.metadata.causationId = cause ∧ Caused row.metadata.eventId rest

/-- The last event of the rows, or what is given. -/
def lastCause (cause : Option String) (rows : List (Row σ B)) : Option String :=
  rows.foldl (fun _ row => row.metadata.eventId) cause

theorem Caused.concat {cause : Option String} {row : Row σ B} (h : Caused cause rows)
    (hrow : row.metadata.causationId = lastCause cause rows) : Caused cause (rows ++ [row]) := by
  induction rows generalizing cause with
  | nil => exact ⟨hrow, trivial⟩
  | cons first rest ih => exact ⟨h.1, ih h.2 hrow⟩

/-- The rows are the events of a stream that come after `expected`. -/
structure Block (stream : σ) (expected : Int) (cause : Option String) (rows : List (Row σ B)) : Prop where
  stream : ∀ row ∈ rows, row.stream = stream
  positions : rows.map (·.streamPosition) = upto expected rows.length
  caused : Caused cause rows

/-- What an append under way has written. -/
structure Job.Writes (job : Job σ E V B) (events : List E) : Prop where
  block : Block job.stream job.expected job.eventMeta.causationId job.written
  cause : job.causationId = lastCause job.eventMeta.causationId job.written
  count : job.written.length + job.remaining.length = events.length

/-- What an append that returned Ok has written. -/
structure Appended.Wrote (append : Appended σ E B) : Prop where
  block : Block append.stream append.expected append.eventMeta.causationId append.rows
  count : append.rows.length = append.events.length

def Tx.written (tx : Tx σ E V B) : List (Row σ B) := tx.job.elim [] (·.1.written)

variable [DecidableEq σ]

namespace World

/-- How many events of a stream there are. -/
def size (rows : List (Row σ B)) (stream : σ) : Nat := (positions rows stream).length

@[simp] theorem positions_append (rows rows' : List (Row σ B)) (stream : σ) :
    positions (rows ++ rows') stream = positions rows stream ++ positions rows' stream := by
  simp [positions]

@[simp] theorem size_append (rows rows' : List (Row σ B)) (stream : σ) :
    size (rows ++ rows') stream = size rows stream + size rows' stream := by
  simp [size]

theorem positions_singleton (row : Row σ B) (stream : σ) :
    positions [row] stream = if row.stream = stream then [row.streamPosition] else [] := by
  by_cases h : row.stream = stream
  · simp [positions, h]
  · simp [positions, h]

theorem mem_positions {row : Row σ B} (hmem : row ∈ rows) : row.streamPosition ∈ positions rows row.stream := by
  refine List.mem_map_of_mem (List.mem_filter.mpr ⟨hmem, ?_⟩)
  simp

end World

open World

/-- A transaction's rows come right after the committed ones. -/
structure Tx.Continues (tx : Tx σ E V B) (table : List (Row σ B)) : Prop where
  own : ∀ stream, positions tx.rows stream = upto (size table stream) (size tx.rows stream)
  loaded : ∀ stream p, tx.loaded stream = some p → 0 ≤ p ∧ p ≤ size table stream + size tx.rows stream
  job : ∀ job events, tx.job = some (job, events) → job.Writes events ∧ 0 ≤ job.expected ∧
    job.expected + job.written.length ≤ size table job.stream + size tx.rows job.stream ∧
    ∀ row ∈ job.written, row ∈ tx.rows
  appends : ∀ append ∈ tx.appends, append.Wrote ∧ ∀ row ∈ append.rows, row ∈ tx.rows
  rows_eq : tx.stray = 0 → tx.rows = tx.appends.flatMap (·.rows) ++ tx.written
  length_eq : tx.rows.length = (tx.appends.flatMap (·.rows)).length + tx.stray + tx.written.length

/-- The committed positions of every stream are from one on, and the transactions' come after. -/
structure World.Numbered (w : World σ E V B) : Prop where
  table : ∀ stream, positions w.table stream = upto 0 (size w.table stream)
  txs : ∀ i, (w.txs i).Continues w.table
  sole : ∀ i j stream, i ≠ j → size (w.txs i).rows stream = 0 ∨ size (w.txs j).rows stream = 0

variable {w w' : World σ E V B} {i : Nat} {tx : Tx σ E V B} {table : List (Row σ B)}

namespace Tx

theorem fresh_continues (table : List (Row σ B)) (aborted : Bool) :
    ({ fresh with aborted := aborted } : Tx σ E V B).Continues table where
  own _ := rfl
  loaded := by rintro _ _ ⟨⟩
  job := by rintro _ _ ⟨⟩
  appends := by rintro _ ⟨⟩
  rows_eq _ := rfl
  length_eq := rfl

/-- Others commit: to streams that the transaction has not written to. -/
theorem Continues.grow (h : tx.Continues table) {more : List (Row σ B)}
    (hsole : ∀ stream, size more stream = 0 ∨ size tx.rows stream = 0) : tx.Continues (table ++ more) where
  own stream := by
    obtain hmore | hown := hsole stream
    · rw [size_append, hmore, Nat.add_zero]
      exact h.own stream
    · rw [hown]
      exact List.length_eq_zero_iff.mp hown
  loaded stream p hp := by
    obtain ⟨hpos, hle⟩ := h.loaded stream p hp
    refine ⟨hpos, ?_⟩
    rw [size_append]
    omega
  job job events hjob := by
    obtain ⟨hwrites, hpos, hle, hmem⟩ := h.job job events hjob
    refine ⟨hwrites, hpos, ?_, hmem⟩
    rw [size_append]
    omega
  appends := h.appends
  rows_eq := h.rows_eq
  length_eq := h.length_eq

/-- What a transaction appended to a stream comes after what was committed to it. -/
theorem Continues.le_expected (h : tx.Continues table) {append : Appended σ E B} (hmem : append ∈ tx.appends)
    (hsome : append.rows ≠ []) : size table append.stream ≤ append.expected := by
  obtain ⟨hwrote, hrows⟩ := h.appends append hmem
  obtain ⟨first, rest, hcons⟩ := List.exists_cons_of_ne_nil hsome
  have hfirst : first ∈ append.rows := hcons ▸ List.mem_cons_self
  have hposition : first.streamPosition = append.expected + 1 := by
    have hpositions := hwrote.block.positions
    rw [hcons, List.length_cons, Nat.add_comm, ← upto_append] at hpositions
    exact (List.cons.inj hpositions).1.trans (Int.add_zero _)
  have hin := mem_positions (hrows first hfirst)
  rw [h.own, mem_upto, hwrote.block.stream first hfirst, hposition] at hin
  omega

end Tx

namespace World

theorem start_numbered : (start : World σ E V B).Numbered where
  table _ := rfl
  txs _ := Tx.fresh_continues [] false
  sole _ _ _ _ := .inl rfl

theorem Numbered.setTx (h : w.Numbered) (htx : tx.Continues w.table)
    (hsole : ∀ j stream, j ≠ i → size tx.rows stream = 0 ∨ size (w.txs j).rows stream = 0) :
    (w.setTx i tx).Numbered where
  table := h.table
  txs j := by
    by_cases hj : j = i
    · subst hj
      simpa [World.setTx] using htx
    · simpa [World.setTx, hj] using h.txs j
  sole j j' stream hne := by
    by_cases hj : j = i
    · subst hj
      simpa [World.setTx, hne.symm] using hsole j' stream hne.symm
    · by_cases hj' : j' = i
      · subst hj'
        simpa [World.setTx, hj] using (hsole j stream hj).symm
      · simpa [World.setTx, hj, hj'] using h.sole j j' stream hne

/-- A step of a transaction that writes no row. -/
theorem Numbered.setSame (h : w.Numbered) (htx : tx.Continues w.table) (hrows : tx.rows = (w.txs i).rows) :
    (w.setTx i tx).Numbered :=
  h.setTx htx fun j stream hj => hrows ▸ h.sole i j stream hj.symm

theorem Numbered.fresh (h : w.Numbered) (aborted : Bool) :
    (w.setTx i { Tx.fresh with aborted := aborted }).Numbered :=
  h.setTx (Tx.fresh_continues _ _) fun _ _ _ => .inl rfl

theorem foldl_max_upto (k : Nat) : (upto 0 k).foldl max 0 = k := by
  induction k with
  | zero => rfl
  | succ k ih =>
    rw [upto_succ, List.foldl_append, ih]
    simp only [List.foldl_cons, List.foldl_nil]
    omega

/-- A load finds the last of all positions, the transaction's own included. -/
theorem Numbered.last_eq (h : w.Numbered) (stream : σ) :
    last (w.table ++ (w.txs i).rows) stream = size w.table stream + size (w.txs i).rows stream := by
  have hown := (h.txs i).own stream
  have hall := upto_append 0 (size w.table stream) (size (w.txs i).rows stream)
  rw [Int.zero_add] at hall
  rw [last, positions_append, h.table, hown, hall, foldl_max_upto]
  exact Int.natCast_add _ _

theorem Numbered.load (h : w.Numbered) (stream : σ) : (w.load i stream).Numbered := by
  have htx := h.txs i
  rw [World.load]
  split
  · exact h
  · refine h.setSame ⟨htx.own, fun other p hp => ?_, htx.job, htx.appends, htx.rows_eq, htx.length_eq⟩ rfl
    by_cases hother : other = stream
    · subst hother
      simp only [Function.update_self, Option.some.injEq] at hp
      subst hp
      rw [h.last_eq]
      exact ⟨by omega, Int.le_refl _⟩
    · simp only [Function.update_of_ne hother] at hp
      exact htx.loaded other p hp

theorem Numbered.append (h : w.Numbered) {stream : σ} {events : List E} {eventMeta : EventMeta σ}
    {codecs : Except (Error σ) (Codecs σ E V B)} (happend : w.append i stream events eventMeta codecs = some w') :
    w'.Numbered := by
  have htx := h.txs i
  simp only [World.append] at happend
  split at happend
  · rename_i expected codecs hjob hloaded
    cases happend
    obtain ⟨hpos, hle⟩ := htx.loaded stream expected hloaded
    have hwritten : (w.txs i).written = [] := by rw [Tx.written, hjob]; rfl
    have hrows := htx.rows_eq
    have hlength := htx.length_eq
    rw [hwritten] at hrows hlength
    refine h.setSame ⟨htx.own, htx.loaded, fun job events' heq => ?_, htx.appends, hrows, hlength⟩ rfl
    cases heq
    refine ⟨⟨⟨by rintro _ ⟨⟩, rfl, trivial⟩, rfl, Nat.zero_add _⟩, hpos, ?_, by rintro _ ⟨⟩⟩
    simpa using hle
  · cases happend
    exact h
  · cases happend

theorem Numbered.fail (h : w.Numbered) {job : Job σ E V B} {events : List E}
    (hjob : (w.txs i).job = some (job, events)) : (w.fail i job).Numbered := by
  have htx := h.txs i
  have hwritten : (w.txs i).written = job.written := by rw [Tx.written, hjob]; rfl
  refine h.setSame ⟨htx.own, htx.loaded, by rintro _ _ ⟨⟩, htx.appends, fun hstray => ?_, ?_⟩ rfl
  · obtain ⟨hzero, hnone⟩ := Nat.add_eq_zero_iff.mp hstray
    have hrows := htx.rows_eq hzero
    rwa [hwritten, List.length_eq_zero_iff.mp hnone] at hrows
  · have hlength := htx.length_eq
    rw [hwritten] at hlength
    simp only [Tx.written, Option.elim_none, List.length_nil]
    omega

/-- An append that has no event left returns Ok. -/
theorem Numbered.finish (h : w.Numbered) {job : Job σ E V B} {events : List E}
    (hjob : (w.txs i).job = some (job, events)) (hnone : job.remaining = []) :
    (w.setTx i { w.txs i with
      job := none
      appends := (w.txs i).appends ++ [⟨job.stream, job.expected, job.eventMeta, events, job.written⟩] }).Numbered := by
  have htx := h.txs i
  have hwritten : (w.txs i).written = job.written := by rw [Tx.written, hjob]; rfl
  obtain ⟨hwrites, -, -, hmem⟩ := htx.job job events hjob
  refine h.setSame ⟨htx.own, htx.loaded, by rintro _ _ ⟨⟩, fun append happend => ?_, fun hstray => ?_, ?_⟩ rfl
  · obtain hbefore | hlast := List.mem_append.mp happend
    · exact htx.appends append hbefore
    · rw [List.mem_singleton.mp hlast]
      refine ⟨⟨hwrites.block, ?_⟩, hmem⟩
      have hcount := hwrites.count
      rwa [hnone, List.length_nil, Nat.add_zero] at hcount
  · have hrows := htx.rows_eq hstray
    rw [hwritten] at hrows
    simpa [Tx.written] using hrows
  · have hlength := htx.length_eq
    rw [hwritten] at hlength
    simp only [Tx.written, Option.elim_none, List.length_nil, List.flatMap_append, List.length_append,
      List.flatMap_singleton]
    omega

omit [DecidableEq σ] in
theorem row_eq {job : Job σ E V B} {event : E} {eventId : String} {row : Row σ B}
    (hrow : job.row event eventId = .ok row) :
    row.stream = job.stream ∧ row.streamPosition = job.position ∧ row.metadata.causationId = job.causationId := by
  obtain ⟨encoded, -, hpayload⟩ := Control.bind_eq_ok.mp hrow
  obtain ⟨payload, -, hversion⟩ := Control.bind_eq_ok.mp hpayload
  obtain ⟨version, -, hrow⟩ := Control.bind_eq_ok.mp hversion
  cases hrow
  exact ⟨rfl, rfl, rfl⟩

/-- A position that is not taken, and that no other transaction holds, is the next one. -/
theorem Numbered.insert (h : w.Numbered) {job : Job σ E V B} {events rest : List E} {event : E} {eventId : String}
    {row : Row σ B} (hjob : (w.txs i).job = some (job, events)) (hremaining : job.remaining = event :: rest)
    (hrow : job.row event eventId = .ok row) (hsmall : job.expected + 1 + job.written.length < 2 ^ 31)
    (hfree : ∀ j, j ≠ i → row.streamPosition ∉ positions (w.txs j).rows row.stream)
    (hinsert : w.insert i job events rest row = some w') : w'.Numbered := by
  have htx := h.txs i
  have hwritten : (w.txs i).written = job.written := by rw [Tx.written, hjob]; rfl
  obtain ⟨hwrites, hpos, hle, hmem⟩ := htx.job job events hjob
  obtain ⟨hstream, hposition, hcause⟩ := row_eq hrow
  rw [World.insert] at hinsert
  split at hinsert
  · cases hinsert
    exact h.fresh true
  · split at hinsert
    · cases hinsert
      exact h.fresh true
    · rename_i htaken
      cases hinsert
      have hnext : row.streamPosition = job.expected + 1 + job.written.length := by
        rw [hposition, Job.position]
        exact Int.bmod_eq_of_le (by omega) (by omega)
      rw [positions_append, List.mem_append, h.table, htx.own, mem_upto, mem_upto, hstream, hnext] at htaken
      have hlast : job.expected + job.written.length =
          size w.table job.stream + size (w.txs i).rows job.stream := by omega
      have halone : ∀ j, j ≠ i → size (w.txs j).rows job.stream = 0 := by
        intro j hj
        obtain hown | hother := h.sole i j job.stream hj.symm
        · by_contra hsome
          refine hfree j hj ?_
          rw [hstream, (h.txs j).own, mem_upto]
          omega
        · exact hother
      have hsize : ∀ stream, size ((w.txs i).rows ++ [row]) stream =
          size (w.txs i).rows stream + if job.stream = stream then 1 else 0 := by
        intro stream
        rw [size_append, size, size, positions_singleton, hstream]
        split
        · rfl
        · rfl
      refine h.setTx ⟨fun stream => ?_, fun stream p hp => ?_, fun job' events' heq => ?_, fun append happend => ?_,
        fun hstray => ?_, ?_⟩ fun j stream hj => ?_
      · rw [positions_append, positions_singleton, htx.own, hstream, hsize]
        split
        · rename_i heq
          rw [upto_succ, hnext, ← heq]
          congr 2
          omega
        · rw [List.append_nil, Nat.add_zero]
      · obtain ⟨hzero, hp⟩ := htx.loaded stream p hp
        rw [hsize]
        omega
      · cases heq
        refine ⟨⟨⟨fun other hother => ?_, ?_, ?_⟩, ?_, ?_⟩, hpos, ?_, fun other hother => ?_⟩
        · obtain hother | hother := List.mem_append.mp hother
          · exact hwrites.block.stream other hother
          · rw [List.mem_singleton.mp hother, hstream]
        · rw [List.map_append, hwrites.block.positions, List.length_append, List.length_singleton, upto_succ,
            List.map_singleton, hnext]
        · exact hwrites.block.caused.concat (hcause.trans hwrites.cause)
        · simp [lastCause]
        · have hcount := hwrites.count
          rw [hremaining] at hcount
          simp only [List.length_append, List.length_cons, List.length_nil] at hcount ⊢
          omega
        · dsimp only
          rw [hsize, if_pos rfl, List.length_append, List.length_singleton]
          omega
        · obtain hother | hother := List.mem_append.mp hother
          · exact List.mem_append_left _ (hmem other hother)
          · exact List.mem_append_right _ hother
      · obtain ⟨hwrote, hrows⟩ := htx.appends append happend
        exact ⟨hwrote, fun other hother => List.mem_append_left _ (hrows other hother)⟩
      · have hrows := htx.rows_eq hstray
        rw [hwritten] at hrows
        simp only [Tx.written, Option.elim_some]
        rw [← List.append_assoc, ← hrows]
      · have hlength := htx.length_eq
        rw [hwritten] at hlength
        simp only [Tx.written, Option.elim_some, List.length_append, List.length_singleton]
        omega
      · by_cases heq : job.stream = stream
        · exact .inr (heq ▸ halone j hj)
        · rw [hsize, if_neg heq, Nat.add_zero]
          exact h.sole i j stream hj.symm

theorem Numbered.next (h : w.Numbered) {eventId : String} (hfree : w.Free (.next i eventId))
    (hsmall : ∀ job events, (w.txs i).job = some (job, events) → job.remaining ≠ [] →
      job.expected + 1 + job.written.length < 2 ^ 31)
    (hnext : w.next i eventId = some w') : w'.Numbered := by
  rw [World.next] at hnext
  split at hnext
  · cases hnext
  · rename_i job events hjob
    split at hnext
    · rename_i hnone
      cases hnext
      exact h.finish hjob hnone
    · rename_i event rest hremaining
      split at hnext
      · cases hnext
        exact h.fail hjob
      · rename_i row hrow
        have hsmall := hsmall job events hjob (hremaining ▸ List.cons_ne_nil event rest)
        refine h.insert hjob hremaining hrow hsmall (hfree row ?_) hnext
        simp [nextRow, hjob, hremaining, hrow, Except.toOption]

/-- What commits joins the committed events, and the other transactions' still come after. -/
theorem Numbered.commit (h : w.Numbered) (hcommit : w.commit i = some w') : w'.Numbered := by
  rw [World.commit] at hcommit
  split at hcommit
  · cases hcommit
  · split at hcommit
    · cases hcommit
      exact h.fresh false
    · cases hcommit
      refine ⟨fun stream => ?_, fun j => ?_, (h.fresh false).sole⟩
      · have hall := upto_append 0 (size w.table stream) (size (w.txs i).rows stream)
        rw [Int.zero_add] at hall
        simp only [positions_append, size_append, h.table stream, (h.txs i).own stream, hall]
      · by_cases hj : j = i
        · subst hj
          simp only [World.setTx, Function.update_self]
          exact Tx.fresh_continues _ false
        · simpa [World.setTx, hj] using (h.txs j).grow fun stream => h.sole i j stream (Ne.symm hj)

/-- The positions that are written stay within the column, and no transaction is committed in which an
append returned an error of the client after it had written an event. -/
def Meets (w : World σ E V B) : Action σ E V B → Prop
  | .next i _ => ∀ job events, (w.txs i).job = some (job, events) → job.remaining ≠ [] →
      job.expected + 1 + job.written.length < 2 ^ 31
  | .commit i => (w.txs i).stray = 0
  | _ => True

theorem Numbered.step (h : w.Numbered) {action : Action σ E V B} (hmeets : w.Meets action) (hfree : w.Free action)
    (hstep : w.step action = some w') : w'.Numbered := by
  cases action with
  | load i stream =>
    cases hstep
    exact h.load stream
  | append i stream events eventMeta codecs => exact h.append hstep
  | next i eventId => exact h.next hfree hmeets hstep
  | refuse i =>
    cases hstep
    exact h.fresh true
  | commit i => exact h.commit hstep
  | rollback i =>
    cases hstep
    exact h.fresh false

/-- Each commit holds what its appends wrote that returned Ok, and each append of an event comes
after all that was committed to its stream before. -/
structure Told (w : World σ E V B) : Prop where
  table_eq : w.table = w.history.flatMap (·.rows)
  rows_eq : ∀ commit ∈ w.history, commit.rows = commit.appends.flatMap (·.rows)
  commits : ∀ before commit after, w.history = before ++ commit :: after → ∀ append ∈ commit.appends,
    append.Wrote ∧ (append.events ≠ [] → ∀ row ∈ before.flatMap (·.rows), row.stream = append.stream →
      row.streamPosition ≤ append.expected)

theorem Told.commit (h : w.Told) (hnumbered : w.Numbered) (hstray : (w.txs i).stray = 0)
    (hcommit : w.commit i = some w') : w'.Told := by
  rw [World.commit] at hcommit
  split at hcommit
  · cases hcommit
  · rename_i hjob
    split at hcommit
    · cases hcommit
      exact ⟨h.table_eq, h.rows_eq, h.commits⟩
    · cases hcommit
      have htx := hnumbered.txs i
      refine ⟨?_, fun commit hmem => ?_, fun before commit after hsplit append happend => ?_⟩
      · rw [List.flatMap_append, ← h.table_eq, List.flatMap_singleton]
      · obtain hmem | hmem := List.mem_append.mp hmem
        · exact h.rows_eq commit hmem
        · rw [List.mem_singleton.mp hmem]
          have hrows := htx.rows_eq hstray
          rwa [Tx.written, hjob, Option.elim_none, List.append_nil] at hrows
      · obtain rfl | ⟨rest, last, rfl⟩ := List.eq_nil_or_concat' after
        · obtain ⟨hbefore, hlast⟩ := List.append_inj' hsplit rfl
          cases hlast
          subst hbefore
          obtain ⟨hwrote, -⟩ := htx.appends append happend
          refine ⟨hwrote, fun hsome row hrow hstream => ?_⟩
          have hrows : append.rows ≠ [] := fun hnil => hsome (List.length_eq_zero_iff.mp (by
            rw [← hwrote.count, hnil, List.length_nil]))
          have hle := htx.le_expected happend hrows
          have hin := mem_positions hrow
          rw [← h.table_eq, hnumbered.table, mem_upto, hstream] at hin
          omega
        · rw [← List.cons_append, ← List.append_assoc] at hsplit
          exact h.commits before commit rest (List.append_inj' hsplit rfl).1 append happend

omit [DecidableEq σ] in
theorem Told.of_history (h : w.Told) (htable : w'.table = w.table) (hhistory : w'.history = w.history) : w'.Told :=
  ⟨by rw [htable, hhistory]; exact h.table_eq, hhistory ▸ h.rows_eq, hhistory ▸ h.commits⟩

theorem Told.step (h : w.Told) (hnumbered : w.Numbered) {action : Action σ E V B} (hmeets : w.Meets action)
    (hstep : w.step action = some w') : w'.Told := by
  cases action with
  | load i stream =>
    cases hstep
    rw [World.load]
    split
    · exact h
    · exact h.of_history rfl rfl
  | append i stream events eventMeta codecs =>
    simp only [World.step, World.append] at hstep
    split at hstep
    · cases hstep
      exact h.of_history rfl rfl
    · cases hstep
      exact h
    · cases hstep
  | next i eventId =>
    simp only [World.step, World.next] at hstep
    split at hstep
    · cases hstep
    · split at hstep
      · cases hstep
        exact h.of_history rfl rfl
      · split at hstep
        · cases hstep
          exact h.of_history rfl rfl
        · rw [World.insert] at hstep
          split at hstep
          · cases hstep
            exact h.of_history rfl rfl
          · split at hstep
            · cases hstep
              exact h.of_history rfl rfl
            · cases hstep
              exact h.of_history rfl rfl
  | refuse i =>
    cases hstep
    exact h.of_history rfl rfl
  | commit i => exact h.commit hnumbered hmeets hstep
  | rollback i =>
    cases hstep
    exact h.of_history rfl rfl

/-- A commit after an append that returned an error of the client leaves rows that no append told. -/
theorem Numbered.commit_rows_iff (h : w.Numbered) (htold : w.Told) (hwhole : (w.txs i).aborted = false)
    (hcommit : w.commit i = some w') :
    (w.txs i).stray = 0 ↔ ∀ commit ∈ w'.history, commit.rows = commit.appends.flatMap (·.rows) := by
  constructor
  · intro hstray
    exact (htold.commit h hstray hcommit).rows_eq
  · intro hrows
    rw [World.commit] at hcommit
    split at hcommit
    · cases hcommit
    · rename_i hjob
      rw [hwhole, if_neg Bool.false_ne_true] at hcommit
      cases hcommit
      have hlast := hrows ⟨(w.txs i).rows, (w.txs i).appends⟩ (List.mem_append_right _ List.mem_cons_self)
      have hlength := (h.txs i).length_eq
      rw [Tx.written, hjob, Option.elim_none, List.length_nil] at hlength
      have hsame := congrArg List.length hlast
      dsimp only at hsame
      omega

/-- A stream is one history, of the appends that returned Ok. -/
theorem run_history (hrun : Run Meets w) :
    (∀ stream, positions w.table stream = upto 0 (size w.table stream)) ∧
    w.table = w.history.flatMap (·.rows) ∧
    (∀ commit ∈ w.history, commit.rows = commit.appends.flatMap (·.rows)) ∧
    (∀ before commit after, w.history = before ++ commit :: after → ∀ append ∈ commit.appends,
      append.Wrote ∧ (append.events ≠ [] → ∀ row ∈ before.flatMap (·.rows), row.stream = append.stream →
        row.streamPosition ≤ append.expected)) ∧
    ∀ i w', (w.txs i).aborted = false → w.commit i = some w' →
      ((w.txs i).stray = 0 ↔ ∀ commit ∈ w'.history, commit.rows = commit.appends.flatMap (·.rows)) := by
  have hboth : w.Numbered ∧ w.Told := by
    induction hrun with
    | start =>
      refine ⟨start_numbered, rfl, by rintro _ ⟨⟩, fun before commit after hsplit => ?_⟩
      exact absurd hsplit.symm (List.append_ne_nil_of_right_ne_nil _ (List.cons_ne_nil _ _))
    | step action _ hmeets hfree hstep ih =>
      exact ⟨ih.1.step hmeets hfree hstep, ih.2.step ih.1 hmeets hstep⟩
  obtain ⟨hnumbered, htold⟩ := hboth
  refine ⟨hnumbered.table, htold.table_eq, htold.rows_eq, htold.commits, fun i w' hwhole hcommit => ?_⟩
  exact hnumbered.commit_rows_iff htold hwhole hcommit

/-- An encoder that knows one of two events. -/
def oneOfTwo : Codecs Unit Bool Unit Unit where
  format known := if known then .ok ⟨"Known", 1, ()⟩ else .error .format
  codec _ := .ok ()

def noMeta : EventMeta Unit := ⟨none, none, none, none, none, []⟩

/-- No insert waits for sessions that have written nothing. -/
theorem free_alone {w : World Unit Bool Unit Unit} {eventId : String}
    (halone : ∀ j, j ≠ i → (w.txs j).rows = []) : w.Free (.next i eventId) := by
  intro row _ j hj
  rw [halone j hj]
  exact List.not_mem_nil

theorem free_first {w : World Unit Bool Unit Unit} {eventId : String} (second : (w.txs 1).rows = [])
    (others : ∀ j, (w.txs (j + 2)).rows = []) : w.Free (.next 0 eventId) := by
  refine free_alone fun j hj => ?_
  match j with
  | 0 => exact absurd rfl hj
  | 1 => exact second
  | j + 2 => exact others j

theorem free_second {w : World Unit Bool Unit Unit} {eventId : String} (first : (w.txs 0).rows = [])
    (others : ∀ j, (w.txs (j + 2)).rows = []) : w.Free (.next 1 eventId) := by
  refine free_alone fun j hj => ?_
  match j with
  | 0 => exact first
  | 1 => exact absurd rfl hj
  | j + 2 => exact others j

/-- Two sessions load an empty stream. The first appends two events, the other's append is refused, and it appends one
after it has loaded the stream again. -/
theorem run_history_two : ∃ w : World Unit Bool Unit Unit, w.history.map (·.rows.length) = [2, 1] ∧
    positions w.table () = upto 0 3 ∧ ∀ commit ∈ w.history, commit.rows = commit.appends.flatMap (·.rows) := by
  have hloaded : Run Meets (start.load 0 () : World Unit Bool Unit Unit) :=
    .step (.load 0 ()) .start trivial trivial rfl
  have hboth := hloaded.step (.load 1 ()) trivial trivial rfl
  have happend := hboth.step (.append 0 () [true, true] noMeta (.ok oneOfTwo)) trivial trivial rfl
  have hfirst := happend.step (.next 0 "first") (by rintro _ _ ⟨⟩; decide) (free_first rfl fun _ => rfl) rfl
  have hsecond := hfirst.step (.next 0 "second") (by rintro _ _ ⟨⟩; decide) (free_first rfl fun _ => rfl) rfl
  have hreturned := hsecond.step (.next 0 "none") (by rintro _ _ ⟨⟩; decide) (free_first rfl fun _ => rfl) rfl
  have hcommitted := hreturned.step (.commit 0) rfl trivial rfl
  have hlate := hcommitted.step (.append 1 () [true] noMeta (.ok oneOfTwo)) trivial trivial rfl
  have hrefused := hlate.step (.next 1 "late") (by rintro _ _ ⟨⟩; decide) (free_second rfl fun _ => rfl) rfl
  have hrolled := hrefused.step (.rollback 1) trivial trivial rfl
  have hagain := hrolled.step (.load 1 ()) trivial trivial rfl
  have hafter := hagain.step (.append 1 () [true] noMeta (.ok oneOfTwo)) trivial trivial rfl
  have hthird := hafter.step (.next 1 "third") (by rintro _ _ ⟨⟩; decide) (free_second rfl fun _ => rfl) rfl
  have hdone := hthird.step (.next 1 "none") (by rintro _ _ ⟨⟩; decide) (free_second rfl fun _ => rfl) rfl
  have hended := hdone.step (.commit 1) rfl trivial rfl
  obtain ⟨hpositions, -, hrows, -⟩ := run_history hended
  exact ⟨_, rfl, hpositions (), hrows⟩

/-- The second of two events is refused, and the caller commits: the first stays. -/
theorem refused_event_stays : ∃ w : World Unit Bool Unit Unit, Run (fun _ _ => True) w ∧
    w.table.length = 1 ∧ ∀ commit ∈ w.history, commit.appends = [] := by
  have hload : Run (fun _ _ => True) (start.load 0 () : World Unit Bool Unit Unit) :=
    .step (.load 0 ()) .start trivial trivial rfl
  have happend := hload.step (.append 0 () [true, false] noMeta (.ok oneOfTwo)) trivial trivial rfl
  have hnext := happend.step (.next 0 "first") trivial
    (free_alone fun j hj => by simp [setTx, start, load, hj, Tx.fresh]) rfl
  have hrefused := hnext.step (.next 0 "second") trivial
    (free_alone fun j hj => by simp [setTx, start, load, hj, Tx.fresh]) rfl
  have hcommitted := hrefused.step (.commit 0) trivial trivial rfl
  refine ⟨_, hcommitted, rfl, fun commit hcommit => ?_⟩
  rw [List.mem_singleton.mp hcommit]
  rfl

end World

end AsceticDdd.EventStore
