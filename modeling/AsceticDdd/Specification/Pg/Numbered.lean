import AsceticDdd.Specification.Pg.Constants
import AsceticDdd.Specification.Pg.Place

/-!
# Every constant is a parameter

The placeholders of a query are numbered one after another in its text, its rows are named apart, and no name and no
constant shapes its words.
-/

namespace AsceticDdd.Specification.Pg

open Control ParamType

variable {V : Type} [ParamType V] {c : Compiler} {items : List Item} {next middle next' : Next} {stand : Stand}
  {fragment left right : Fragment V}

/-- The types of the values are the server's. -/
def Typed (V : Type) [ParamType V] : Prop := ∀ (value : V) (type : String), paramType value = some type → type ∈ types

/-- What a tree of the constants is rendered as. -/
structure Renders (constants : Except CompileError (List V)) (next : Next) (fragment : Fragment V) (next' : Next) :
    Prop where
  counts : Counts next fragment.sql.marks fragment.params next'
  sound : Typed V → fragment.sql.Sound
  spells : constants = .ok fragment.params

def Rendering.Counted (render : Rendering V) (constants : List Item → Stand → Except CompileError (List V)) : Prop :=
  ∀ {items next stand fragment next'}, Aliased items → render items next stand = .ok (fragment, next') →
    Renders (constants (items.map Item.unnamed) stand) next fragment next'

variable {constants : Except CompileError (List V)}

theorem Renders.within (h : Renders constants next fragment next') (precedence : Nat) (apart : Bool) :
    Renders constants next (fragment.within precedence apart) next' := by
  unfold Fragment.within
  split
  · exact ⟨h.counts, h.sound, h.spells⟩
  · exact h

theorem Renders.ofType (h : Renders constants next fragment next') (said : Option String)
    (known : Typed V → ∀ type, said = some type → type ∈ types) :
    Renders constants next (fragment.ofType said) next' := by
  cases said with
  | none => exact h
  | some type => exact ⟨h.counts, fun typed => ⟨known typed type rfl, h.sound typed⟩, h.spells⟩

theorem or_mem {said : Option String} {other type : String} (known : ∀ type, said = some type → type ∈ types)
    (other_known : other ∈ types) (h : said.or (some other) = some type) : type ∈ types := by
  cases said with
  | none =>
    cases h
    exact other_known
  | some said => exact known type h

theorem underPrefix_mem {op : Prefix} {operand : Expr V} (typed : Typed V) (type : String)
    (h : underPrefix op operand = some type) : type ∈ types := by
  unfold underPrefix at h
  split at h
  · rename_i value
    cases op with
    | neg => exact or_mem (typed value) (by decide) h
    | not =>
      rw [Option.or_none] at h
      exact typed value type h
  · cases h

theorem underPostfix_mem {operand : Expr V} (typed : Typed V) (type : String) (h : underPostfix operand = some type) :
    type ∈ types := by
  unfold underPostfix at h
  split at h
  · exact or_mem (typed _) (by decide) h
  · cases h

theorem ofBoth_mem {op : Infix} {one other : Expr V} (typed : Typed V) :
    (∀ type, (ofBoth op one other).1 = some type → type ∈ types) ∧
      ∀ type, (ofBoth op one other).2 = some type → type ∈ types := by
  have counted : ∀ {said : Option String}, (∀ type, said = some type → type ∈ types) → ∀ type,
      (if said = some "bigint" && isShift op then some "integer" else said) = some type → type ∈ types := by
    intro said known type h
    split at h
    · cases h
      decide
    · exact known type h
  have bigint : ∀ type, some "bigint" = some type → type ∈ types := by
    rintro _ ⟨⟩
    decide
  unfold ofBoth
  split
  · rename_i one other
    dsimp only
    split
    · exact ⟨bigint, counted bigint⟩
    · exact ⟨typed one, counted (typed other)⟩
  · constructor <;> rintro _ ⟨⟩

theorem constant_counted (value : V) :
    Rendering.Counted (fun _ next _ => constant value next) (c.constants (.value value)) := by
  intro items next stand fragment next' _ h
  unfold constant at h
  split at h
  · cases h
  · cases h
    exact ⟨.param_one value, fun _ => trivial, rfl⟩

theorem field_counted (path : Path) : Rendering.Counted (V := V) (fun items next _ => c.field path items next)
    (c.constants (.field path)) := by
  intro items next stand fragment next' aliased h
  obtain ⟨⟨sql, _⟩, hmember, h⟩ := bind_eq_ok.mp h
  cases h
  obtain ⟨counts, sound⟩ := member_reads aliased hmember
  exact ⟨counts, fun _ => sound, rfl⟩

theorem itself_counted (up : Nat) : Rendering.Counted (V := V) (fun items next _ => itself up items next)
    (c.constants (.item up)) := by
  intro items next stand fragment next' aliased h
  obtain ⟨item, hitem, h⟩ := bind_eq_ok.mp h
  have row := aliased.still (V := V) hitem
  split at h
  · cases h
    exact ⟨row.reads.counts, fun _ => row.sound, rfl⟩
  · cases h
    exact ⟨(row.read _).reads.counts, fun _ => (row.read _).sound, rfl⟩
  · cases h
  · cases h

theorem prefixed_counted {op : Prefix} {operand : Expr V} {render : Rendering V}
    (ih : render.Counted (c.constants operand)) :
    Rendering.Counted (fun items next _ => Compiler.prefixed op operand render items next)
      (c.constants (.prefixed op operand)) := by
  intro items next stand fragment next' aliased h
  obtain ⟨⟨rendered, _⟩, hrendered, h⟩ := bind_eq_ok.mp h
  cases h
  have dressed := ((ih aliased hrendered).ofType (underPrefix op operand) underPrefix_mem).within
    (Precedence.ofPrefix op)
    (op = .neg && (rendered.ofType (underPrefix op operand)).precedence = Precedence.ofPrefix op)
  exact ⟨dressed.counts, dressed.sound, dressed.spells⟩

omit [ParamType V] in
theorem nullTest_mem {op : Postfix} {operand : Expr V} {test : String} (h : c.nullTest op operand items = .ok test) :
    test ∈ tests := by
  obtain ⟨composite, _, h⟩ := bind_eq_ok.mp h
  split at h
  · cases op <;> cases h <;> decide
  · cases op <;> cases h <;> decide

theorem postfixed_counted {operand : Expr V} {op : Postfix} {render : Rendering V}
    (ih : render.Counted (c.constants operand)) :
    Rendering.Counted (fun items next _ => c.postfixed operand op render items next)
      (c.constants (.postfixed operand op)) := by
  intro items next stand fragment next' aliased h
  unfold Compiler.postfixed at h
  obtain ⟨test, htest, h⟩ := bind_eq_ok.mp h
  -- Whatever is rendered is tested alike.
  have tested : ∀ {rendered : Fragment V},
      Renders (c.constants operand (items.map Item.unnamed) .value) next rendered next' →
      Renders (c.constants (.postfixed operand op) (items.map Item.unnamed) stand) next
        ⟨.tested ((rendered.ofType (underPostfix operand)).within (Precedence.ofPostfix op) true).sql test,
          ((rendered.ofType (underPostfix operand)).within (Precedence.ofPostfix op) true).params,
          Precedence.ofPostfix op⟩ next' := by
    intro rendered renders
    have dressed := (renders.ofType (underPostfix operand) underPostfix_mem).within (Precedence.ofPostfix op) true
    exact ⟨dressed.counts, fun typed => ⟨nullTest_mem htest, dressed.sound typed⟩, dressed.spells⟩
  dsimp only at h
  split at h
  · rename_i path
    obtain ⟨⟨sql, _⟩, hmember, h⟩ := bind_eq_ok.mp h
    cases h
    obtain ⟨counts, sound⟩ := member_reads aliased hmember
    exact tested ⟨counts, fun _ => sound, rfl⟩
  · obtain ⟨⟨rendered, _⟩, hrendered, h⟩ := bind_eq_ok.mp h
    cases h
    exact tested (ih aliased hrendered)

theorem between_counted {one other : Expr V} {op : Infix} {renderOne renderOther : Rendering V}
    (ih : renderOne.Counted (c.constants one)) (ih' : renderOther.Counted (c.constants other)) :
    Rendering.Counted (fun items next stand => Compiler.between one op other renderOne renderOther items next stand)
      (c.constants (.infixed one op other)) := by
  intro items next stand fragment next' aliased h
  obtain ⟨⟨left, middle⟩, hleft, h⟩ := bind_eq_ok.mp h
  obtain ⟨⟨right, _⟩, hright, h⟩ := bind_eq_ok.mp h
  cases h
  have first := ih aliased hleft
  have second := ih' aliased hright
  have count : Renders (c.constants other (items.map Item.unnamed) (Compiler.operandsOf op stand)) middle
      (if isACountToCast op other then (right.within Precedence.cast false).ofType (some "integer")
        else right.ofType (ofBoth op one other).2) next' := by
    split
    · refine (second.within _ _).ofType _ ?_
      rintro _ _ ⟨⟩
      decide
    · exact second.ofType _ fun typed => (ofBoth_mem typed).2
  have left' := (first.ofType (ofBoth op one other).1 fun typed => (ofBoth_mem typed).1).within
    (Precedence.ofInfix op).1 ((Precedence.ofInfix op).2 ≠ .left && !Precedence.regroups op)
  have right' := count.within (Precedence.ofInfix op).1 ((Precedence.ofInfix op).2 ≠ .right && !Precedence.regroups op)
  exact ⟨left'.counts.append right'.counts, fun typed => ⟨left'.sound typed, right'.sound typed⟩,
    Compiler.constants_infixed left'.spells right'.spells⟩

theorem containment_counted {one other : Expr V} (aliased : Aliased items)
    (h : c.containment one other items next = .ok (some (fragment, next'))) :
    Renders (c.constants (.infixed one (.comparison .eq) other) (items.map Item.unnamed) stand) next fragment
      next' := by
  obtain ⟨found, hcontained, h⟩ := bind_eq_ok.mp h
  cases found with
  | none => cases h
  | some found =>
    obtain ⟨gin, pattern⟩ := found
    obtain ⟨written, hcontaining, h⟩ := bind_eq_ok.mp h
    cases written with
    | none => cases h
    | some written =>
      obtain ⟨sql, values, _⟩ := written
      cases h
      unfold Compiler.contained at hcontained
      split at hcontained
      · obtain ⟨still, known⟩ := containedIn_still aliased hcontained
        obtain ⟨⟨counts, sound⟩, rfl⟩ := containing_writes still hcontaining
        exact ⟨counts, fun _ => sound, known ▸ rfl⟩
      · obtain ⟨still, known⟩ := containedIn_still aliased hcontained
        obtain ⟨⟨counts, sound⟩, rfl⟩ := containing_writes still hcontaining
        exact ⟨counts, fun _ => sound, known ▸ rfl⟩
      · cases hcontained

theorem infixed_counted {one other : Expr V} {op : Infix} {renderOne renderOther : Rendering V}
    (ih : renderOne.Counted (c.constants one)) (ih' : renderOther.Counted (c.constants other)) :
    Rendering.Counted (fun items next stand => c.infixed one op other renderOne renderOther items next stand)
      (c.constants (.infixed one op other)) := by
  intro items next stand fragment next' aliased h
  unfold Compiler.infixed at h
  dsimp only at h
  split at h
  · rename_i truth
    obtain ⟨_, equality⟩ := Bool.and_eq_true_iff.mp truth
    obtain rfl := of_decide_eq_true equality
    obtain ⟨found, hcontained, h⟩ := bind_eq_ok.mp h
    cases found with
    | none => exact between_counted ih ih' aliased h
    | some found =>
      cases h
      exact containment_counted aliased hcontained
  · exact between_counted ih ih' aliased h

theorem Aliased.cons (aliased : Aliased items) {name row : String} {holds : Holds} (plain : Plain name) :
    Aliased (⟨name, row, holds⟩ :: items) := List.forall_mem_cons.mpr ⟨plain, aliased⟩

theorem containing_none {pattern : Pattern V} {path : List String} {document : Sql V}
    (h : pattern.containing document path next = .ok none) : (path.isEmpty || (pattern.atPath path).isSome) = false := by
  unfold Pattern.containing at h
  split at h
  · obtain ⟨⟨json, _, _⟩, _, h⟩ := bind_eq_ok.mp h
    cases h
  · rename_i hpath
    split at h
    · rename_i hnone
      rw [hnone, Bool.not_eq_true _ |>.mp hpath]
      rfl
    · obtain ⟨⟨json, _, _⟩, _, h⟩ := bind_eq_ok.mp h
      obtain ⟨value, _, h⟩ := bind_eq_ok.mp h
      cases h

theorem containing_some {pattern : Pattern V} {path : List String} {document sql : Sql V} {values : List V}
    (h : pattern.containing document path next = .ok (some (sql, values, next'))) :
    (path.isEmpty || (pattern.atPath path).isSome) = true := by
  unfold Pattern.containing at h
  split at h
  · rename_i hpath
    rw [hpath]
    rfl
  · split at h
    · cases h
    · rename_i hsome
      rw [hsome, Option.isSome_some, Bool.or_true]

/-- What is written beside a collection has the constants its document is asked to contain. -/
theorem containedBeside_counted {collection : DocumentCollection V} {predicate : Expr V} {sql : Sql V}
    {values : List V} (still : ∀ gin, collection.gin = some gin → Still gin.document)
    (h : Compiler.containedBeside collection predicate next stand = .ok (some (sql, values, next'))) :
    Writes next sql values next' ∧ values = Compiler.beside collection predicate stand := by
  unfold Compiler.containedBeside at h
  split at h
  · rename_i gin hgin
    split at h
    · rename_i pattern made
      obtain ⟨writes, rfl⟩ := containing_writes (still gin hgin) h
      refine ⟨writes, ?_⟩
      simp only [Compiler.beside, hgin, made, containing_some h, if_true]
      exact constantsOf_of_ofArray made
    · cases h
  · cases h

theorem containedBeside_none {collection : DocumentCollection V} {predicate : Expr V}
    (h : Compiler.containedBeside collection predicate next stand = .ok none) :
    Compiler.beside collection predicate stand = [] := by
  cases stand with
  | value => rfl
  | truth =>
    cases hgin : collection.gin with
    | none => simp only [Compiler.beside, hgin]
    | some gin =>
      simp only [Compiler.containedBeside, hgin] at h
      simp only [Compiler.beside, hgin]
      cases made : Pattern.ofArray gin.names.dropLast (gin.names.getLastD "")
          (Pattern.elements predicate collection.items) with
      | none => rfl
      | some pattern =>
        simp only [made] at h
        simp only [containing_none h, Bool.false_eq_true, if_false]

/-- The rows of a collection bound, and what is counted under them. -/
theorem Renders.existing {name : String} {rows : Sql V} (still : Still rows) (named : IsAlias name (next.aliases + 1))
    (h : Renders constants { next with aliases := next.aliases + 1 } fragment next') (precedence : Nat) :
    Renders constants next ⟨.existing rows name fragment.sql, fragment.params, precedence⟩ next' := by
  refine ⟨?_, fun typed => ⟨named.plain, still.sound, h.sound typed⟩, h.spells⟩
  simp only [Sql.marks, still.marks, List.nil_append]
  exact h.counts.bound named

/-- After the keys that join a row to its parent. -/
theorem Renders.joined {keys : Sql V} (still : Still keys) (h : Renders constants next fragment next')
    (precedence : Nat) :
    Renders constants next ⟨.infixed keys (.logical .and) fragment.sql, fragment.params, precedence⟩ next' := by
  refine ⟨?_, fun typed => ⟨still.sound, h.sound typed⟩, h.spells⟩
  simp only [Sql.marks, still.marks, List.nil_append]
  exact h.counts

theorem existsInDocument_counted {collection : DocumentCollection V} {source : Path} {predicate : Expr V}
    {render : Rendering V} (ih : render.Counted (c.constants predicate)) (array : Still collection.array)
    (still : ∀ gin, collection.gin = some gin → Still gin.document) (aliased : Aliased items)
    (found : c.documentCollection source items = .ok (some collection))
    (h : Compiler.existsInDocument collection source predicate render items next stand = .ok (fragment, next')) :
    Renders (c.constants (.any source predicate) (items.map Item.unnamed) stand) next fragment next' := by
  obtain ⟨contained, hcontained, h⟩ := bind_eq_ok.mp h
  obtain ⟨one, hone, h⟩ := bind_eq_ok.mp h
  obtain ⟨⟨rendered, _⟩, hrendered, h⟩ := bind_eq_ok.mp h
  have function : Compiler.elementsFunction collection.items ∈ functions := by
    unfold Compiler.elementsFunction
    split <;> decide
  have named : ∀ number, IsAlias (one ++ "_" ++ toString number) number := fun _ => ⟨one, singularOf_plain hone, rfl⟩
  have renders := ih (aliased.cons (named _).plain) hrendered
  have spells : c.constants (.any source predicate) (items.map Item.unnamed) stand =
      .ok (Compiler.beside collection predicate stand ++ rendered.params) := by
    have inner : c.constants predicate
        (⟨"", collection.row, .document collection.items⟩ :: items.map Item.unnamed) .truth = .ok rendered.params :=
      renders.spells
    rw [Compiler.constants_any found, Compiler.itemOf, ok_bind, inner]
    rfl
  cases contained with
  | none =>
    cases h
    obtain ⟨counts, sound, -⟩ := renders.existing (array.ifArray.call function) (named _) Precedence.atom
    rw [containedBeside_none hcontained] at spells
    exact ⟨counts, sound, spells⟩
  | some contained =>
    obtain ⟨contains, values, middle⟩ := contained
    cases h
    obtain ⟨counts, sound, -⟩ := renders.existing (array.ifArray.call function) (named _) Precedence.atom
    obtain ⟨writes, rfl⟩ := containedBeside_counted still hcontained
    exact ⟨writes.counts.append counts, fun typed => ⟨writes.sound, sound typed⟩, spells⟩

/-- Without a document the constants under a collection are those of its predicate. -/
theorem constants_rows {source : Path} {predicate : Expr V} {item : Item} {values : List V}
    (found : c.documentCollection (V := V) source items = .ok none)
    (under : c.itemOf (V := V) source items none = .ok item)
    (h : c.constants predicate (item :: items.map Item.unnamed) .truth = .ok values) :
    c.constants (.any source predicate) (items.map Item.unnamed) stand = .ok values := by
  rw [Compiler.constants_any found, under, ok_bind, h]
  rfl

theorem existsInRows_counted {source : Path} {predicate : Expr V} {render : Rendering V}
    (ih : render.Counted (c.constants predicate)) (aliased : Aliased items)
    (found : c.documentCollection (V := V) source items = .ok none)
    (h : c.existsInRows source render items next = .ok (fragment, next')) :
    Renders (c.constants (.any source predicate) (items.map Item.unnamed) stand) next fragment next' := by
  have named : ∀ {name one}, singularOf name = .ok one → ∀ number, IsAlias (one ++ "_" ++ toString number) number :=
    fun hone _ => ⟨_, singularOf_plain hone, rfl⟩
  unfold Compiler.existsInRows at h
  obtain ⟨of, hof, h⟩ := bind_eq_ok.mp h
  dsimp only at h
  cases of with
  | none =>
    rw [ok_bind] at h
    obtain ⟨one, hone, h⟩ := bind_eq_ok.mp h
    obtain ⟨⟨rendered, _⟩, hrendered, h⟩ := bind_eq_ok.mp h
    obtain ⟨column, hcolumn, h⟩ := bind_eq_ok.mp h
    cases h
    have under : c.itemOf (V := V) source items none =
        .ok ⟨"", "" ++ "." ++ ".".intercalate source.names, .unnested⟩ := by
      rw [Compiler.itemOf, hof]
      rfl
    have renders := ih (aliased.cons (named hone _).plain) hrendered
    have rows : Still (.call "unnest" column) := (column_still aliased hcolumn).call (by decide)
    obtain ⟨counts, sound, -⟩ := renders.existing rows (named hone _) Precedence.atom
    exact ⟨counts, sound, constants_rows found under renders.spells⟩
  | some of =>
    obtain ⟨relation, hrelation, h⟩ := bind_eq_ok.mp h
    cases relation with
    | none =>
      obtain ⟨one, hone, h⟩ := bind_eq_ok.mp h
      obtain ⟨⟨rendered, _⟩, hrendered, h⟩ := bind_eq_ok.mp h
      obtain ⟨column, hcolumn, h⟩ := bind_eq_ok.mp h
      cases h
      have under : c.itemOf (V := V) source items none =
          .ok ⟨"", of ++ "." ++ ".".intercalate source.names, .unnested⟩ := by
        rw [Compiler.itemOf, hof, ok_bind]
        dsimp only
        rw [hrelation]
        rfl
      have renders := ih (aliased.cons (named hone _).plain) hrendered
      have rows : Still (.call "unnest" column) := (column_still aliased hcolumn).call (by decide)
      obtain ⟨counts, sound, -⟩ := renders.existing rows (named hone _) Precedence.atom
      exact ⟨counts, sound, constants_rows found under renders.spells⟩
    | some key =>
      obtain ⟨one, hone, h⟩ := bind_eq_ok.mp h
      obtain ⟨⟨rendered, after⟩, hrendered, h⟩ := bind_eq_ok.mp h
      have under : c.itemOf (V := V) source items none = .ok ⟨"", key.table, .table⟩ := by
        rw [Compiler.itemOf, hof, ok_bind]
        dsimp only
        rw [hrelation]
        rfl
      have inner := ih (aliased.cons (named hone _).plain) hrendered
      have spells : c.constants (.any source predicate) (items.map Item.unnamed) stand = .ok rendered.params :=
        constants_rows found under inner.spells
      have renders := inner.within (Precedence.ofInfix (.logical .and)).1 false
      -- Whichever row is the parent, the keys join it.
      have joined : ∀ {parent keys : Sql V} {table : List String}, Still parent →
          equalities (.name [one ++ "_" ++ toString (next.aliases + 1)]) parent (key.column, key.referencedColumn)
            key.more = .ok keys → qualified key.table = .ok table →
          Renders (c.constants (.any source predicate) (items.map Item.unnamed) stand) next
            ⟨.existing (.name table) (one ++ "_" ++ toString (next.aliases + 1))
              (.infixed keys (.logical .and)
                (rendered.within (Precedence.ofInfix (.logical .and)).1 false).sql),
              (rendered.within (Precedence.ofInfix (.logical .and)).1 false).params, Precedence.atom⟩ after := by
        intro parent keys table parent_still hkeys htable
        have row : Still (.name [one ++ "_" ++ toString (next.aliases + 1)] : Sql V) :=
          .name (List.forall_mem_singleton.mpr (named hone _).plain)
        obtain ⟨counts, sound, -⟩ := (renders.joined (equalities_still row parent_still hkeys)
          Precedence.atom).existing (.name (qualified_plain htable)) (named hone _) Precedence.atom
        have params : (rendered.within (Precedence.ofInfix (.logical .and)).1 false).params = rendered.params := by
          unfold Fragment.within
          split <;> rfl
        exact ⟨counts, sound, spells.trans (congrArg Except.ok params.symm)⟩
      dsimp only at h
      split at h
      · obtain ⟨item, hitem, h⟩ := bind_eq_ok.mp h
        obtain ⟨_, ⟨⟩, h⟩ := bind_eq_ok.mp h
        obtain ⟨keys, hkeys, h⟩ := bind_eq_ok.mp h
        obtain ⟨table, htable, h⟩ := bind_eq_ok.mp h
        cases h
        exact joined (aliased.still hitem) hkeys htable
      · obtain ⟨parts, hparts, h⟩ := bind_eq_ok.mp h
        obtain ⟨_, ⟨⟩, h⟩ := bind_eq_ok.mp h
        obtain ⟨keys, hkeys, h⟩ := bind_eq_ok.mp h
        obtain ⟨table, htable, h⟩ := bind_eq_ok.mp h
        cases h
        exact joined (schemaRow_still hparts) hkeys htable
      · obtain ⟨_, ⟨⟩, h⟩ := bind_eq_ok.mp h
        obtain ⟨keys, hkeys, h⟩ := bind_eq_ok.mp h
        obtain ⟨table, htable, h⟩ := bind_eq_ok.mp h
        cases h
        exact joined (.name (List.forall_mem_nil _)) hkeys htable

theorem render_counted (expr : Expr V) : Rendering.Counted (c.render expr) (c.constants expr) := by
  induction expr with
  | value value => exact @constant_counted V _ c value
  | field path => exact @field_counted V _ c path
  | prefixed op operand ih => exact @prefixed_counted V _ c op operand _ ih
  | infixed left op right ihl ihr => exact infixed_counted ihl ihr
  | postfixed operand op ih => exact @postfixed_counted V _ c operand op _ ih
  | any source predicate ih =>
    intro items next stand fragment next' aliased h
    obtain ⟨collection, hcollection, h⟩ := bind_eq_ok.mp h
    cases collection with
    | some collection =>
      obtain ⟨array, still⟩ := documentCollection_still aliased hcollection
      exact existsInDocument_counted ih array still aliased hcollection h
    | none => exact existsInRows_counted ih aliased hcollection h
  | item up => exact @itself_counted V _ c up

variable {expr : Expr V} {query : Compiler.Query V}

theorem compile_renders (h : c.compile expr = .ok query) : ∃ precedence next',
    Renders (c.constants expr [] .truth) ⟨c.offset, 0⟩ ⟨query.sql, query.params, precedence⟩ next' := by
  obtain ⟨⟨fragment, next'⟩, rendered, h⟩ := bind_eq_ok.mp h
  cases h
  exact ⟨fragment.precedence, next', render_counted expr (List.forall_mem_nil _) rendered⟩

theorem number_of_alias {names : List String} {numbers : List Nat} {name : String}
    (named : List.Forall₂ IsAlias names numbers) (mem : name ∈ names) : ∃ number ∈ numbers, IsAlias name number := by
  induction named with
  | nil => exact absurd mem List.not_mem_nil
  | cons isAlias _ ih =>
    obtain rfl | mem := List.mem_cons.mp mem
    · exact ⟨_, List.mem_cons_self, isAlias⟩
    · obtain ⟨number, there, isAlias⟩ := ih mem
      exact ⟨number, List.mem_cons_of_mem _ there, isAlias⟩

/-- Rows numbered apart are named apart. -/
theorem nodup_of_aliases {names : List String} {numbers : List Nat} (named : List.Forall₂ IsAlias names numbers)
    (once : numbers.Nodup) : names.Nodup := by
  induction named with
  | nil => exact List.nodup_nil
  | cons isAlias named ih =>
    obtain ⟨apart, once⟩ := List.nodup_cons.mp once
    refine List.nodup_cons.mpr ⟨fun again => ?_, ih once⟩
    obtain ⟨number, mem, isAlias'⟩ := number_of_alias named again
    exact apart (isAlias.unique isAlias' ▸ mem)

/-- A document with an index, and a collection in it. -/
def indexedShops : Compiler :=
  ⟨some { Compiler.addressed [(("shops", "address"), [("tags", .values .text)])] with
    gins := [(("shops", "address"), [])] }, 0⟩

def taggedRed : Expr Value := .any Compiler.addressTags (.infixed (.item 0) (.comparison .eq) (.value (.text "red")))

def taggedRedSql : Sql Value :=
  .infixed
    (.contains (.member (.name ["s"]) "address")
      (.jsonbSet "tags" (.joined .emptyArray
        (.group (.object (.jsonbObject "v" (.cast (.param 1 (.text "red")) "text")) "v")))))
    (.logical .and)
    (.existing (.call "jsonb_array_elements_text" (.ifArray (.object (.member (.name ["s"]) "address") "tags")))
      "tag_1" (.infixed (.group (.collated (.name ["tag_1"]))) (.comparison .eq) (.param 2 (.text "red"))))

theorem compile_taggedRed : indexedShops.compile taggedRed = .ok ⟨taggedRedSql, [.text "red", .text "red"]⟩ := by
  have entered : indexedShops.entered Compiler.addressTags [] =
      .ok (some (⟨.member (.name ["s"]) "address", "shops.address", [("tags", .values .text)], ["tags"], [[]]⟩ :
        Entered Value)) := by
    change (do indexedShops.documentAt "shops" (.name (← qualified "s")) ["address", "tags"]) = _
    rw [Compiler.qualified_s]
    rfl
  have collection : indexedShops.documentCollection Compiler.addressTags [] =
      .ok (some (⟨.object (.member (.name ["s"]) "address") "tags", "shops.address.tags", .values .text,
        some ⟨.member (.name ["s"]) "address", [], ["tags"]⟩⟩ : DocumentCollection Value)) := by
    rw [Compiler.documentCollection, entered]
    rfl
  have tag : singularOf Compiler.addressTags.name = .ok "tag" := Compiler.singularOf_tags
  rw [Compiler.compile, taggedRed, Compiler.render, Compiler.existing, collection, ok_bind]
  change (do let x ← Compiler.existsInDocument _ _ _ _ _ _ _; _) = _
  rw [Compiler.existsInDocument, tag]
  rfl

/-- The placeholders of a query are numbered one after another in its text from the compiler's offset, each stands for
the constant its parameters have there, and these are the tree's in the order of the text. No two rows that the
condition binds have one alias; nor has the candidate's row one of theirs, unless the schema calls it like one. -/
theorem compile_numbers_constants (h : c.compile expr = .ok query) :
    query.sql.placeholders = List.range' (c.offset + 1) query.params.length ∧
      query.sql.params = numbered c.offset query.params ∧
      c.constants expr [] .truth = .ok query.params ∧ (∀ value, value ∈ query.params ↔ value ∈ expr.values) ∧
      query.sql.aliases.Nodup ∧
      ∀ schema, c.schema = some schema → (∀ number, ¬ IsAlias schema.row number) →
        (schema.row :: query.sql.aliases).Nodup := by
  obtain ⟨precedence, next', renders⟩ := compile_renders h
  have params : query.sql.params = numbered c.offset query.params := renders.counts.params
  obtain ⟨numbers, named, once, _⟩ := renders.counts.aliases
  have apart : query.sql.aliases.Nodup := nodup_of_aliases named once
  refine ⟨?_, params, renders.spells, Compiler.mem_constants renders.spells, apart, fun schema _ other => ?_⟩
  · rw [placeholders_eq, params, numbered_fst]
  · refine List.nodup_cons.mpr ⟨fun mem => ?_, apart⟩
    obtain ⟨number, _, isAlias⟩ := number_of_alias named mem
    exact other number isAlias

theorem compile_numbers_constants_taggedRed :
    taggedRedSql.placeholders = [1, 2] ∧ taggedRedSql.params = [(1, .text "red"), (2, .text "red")] ∧
      indexedShops.constants taggedRed [] .truth = .ok [.text "red", .text "red"] ∧
      (∀ value, value ∈ [Value.text "red", .text "red"] ↔ value ∈ taggedRed.values) ∧
      ("s" :: taggedRedSql.aliases).Nodup := by
  have other : ∀ number, ¬ IsAlias "s" number := by
    rintro number ⟨one, _, same⟩
    have length := congrArg String.length same
    have digit : 0 < (toString number).length := by
      rw [← String.length_toList, digits_toString]
      exact List.length_pos_of_ne_nil (Text.digits_ne_nil number)
    simp only [String.length_append] at length
    have first : "s".length = 1 := rfl
    have cut : "_".length = 1 := rfl
    omega
  obtain ⟨placeholders, params, constants, same, _, apart⟩ := compile_numbers_constants compile_taggedRed
  exact ⟨placeholders, params, constants, same, apart _ rfl other⟩

theorem typed_value : Typed Value := by
  intro value type h
  cases value with
  | null => cases h
  | _ =>
    cases h
    decide

/-- Whatever the names and the constants of a tree and of its schema are, a text has only the compiler's words,
placeholders, and plain names between quotes. -/
theorem compile_sound (typed : Typed V) (h : c.compile expr = .ok query) : ∀ piece ∈ query.sql.pieces, piece.Sound := by
  obtain ⟨precedence, next', renders⟩ := compile_renders h
  exact sound_pieces (renders.sound typed)

theorem compile_sound_taggedRed :
    indexedShops.compile taggedRed = .ok ⟨taggedRedSql, [.text "red", .text "red"]⟩ ∧
      ∀ piece ∈ taggedRedSql.pieces, piece.Sound :=
  ⟨compile_taggedRed, compile_sound typed_value compile_taggedRed⟩

end AsceticDdd.Specification.Pg
