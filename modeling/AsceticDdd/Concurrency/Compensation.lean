import AsceticDdd.Concurrency.Shuffle
import Mathlib.Data.List.Nodup

/-!
# Work that is compensated in reverse

A region is a set of named works in a series-parallel order: some are standing, done and not
undone, the rest may still be done. A trace keeps a region when it does no work twice, undoes only
what is standing, and never undoes a work while one that comes later in the order is standing.
Regions compose in series and side by side, and so do the traces that keep them.
-/

namespace AsceticDdd.Compensation

inductive Event (ν : Type)
  | did (name : ν)
  | undid (name : ν)
deriving DecidableEq

def Event.name {ν : Type} : Event ν → ν
  | did name | undid name => name

@[ext]
structure Region (ν : Type) where
  standing : List ν
  fresh : List ν
  earlier : ν → ν → Prop
  within : ∀ a b, earlier a b → a ∈ standing ++ fresh ∧ b ∈ standing ++ fresh

namespace Region

variable {ν : Type}

def names (r : Region ν) : List ν := r.standing ++ r.fresh

def empty : Region ν := ⟨[], [], fun _ _ => False, fun _ _ h => h.elim⟩

def once (a : ν) : Region ν := ⟨[], [a], fun _ _ => False, fun _ _ h => h.elim⟩

def done (a : ν) : Region ν := ⟨[a], [], fun _ _ => False, fun _ _ h => h.elim⟩

theorem mem_append_names {r s : Region ν} {a : ν} :
    a ∈ (r.standing ++ s.standing) ++ (r.fresh ++ s.fresh) ↔ a ∈ r.names ∨ a ∈ s.names := by
  simp only [names, List.mem_append]
  tauto

/-- One region, and then another. -/
def seq (r s : Region ν) : Region ν where
  standing := r.standing ++ s.standing
  fresh := r.fresh ++ s.fresh
  earlier a b := r.earlier a b ∨ s.earlier a b ∨ a ∈ r.names ∧ b ∈ s.names
  within a b h := by
    rw [mem_append_names, mem_append_names]
    obtain h | h | ⟨ha, hb⟩ := h
    · exact ⟨.inl (r.within a b h).1, .inl (r.within a b h).2⟩
    · exact ⟨.inr (s.within a b h).1, .inr (s.within a b h).2⟩
    · exact ⟨.inl ha, .inr hb⟩

/-- Two regions side by side. -/
def par (r s : Region ν) : Region ν where
  standing := r.standing ++ s.standing
  fresh := r.fresh ++ s.fresh
  earlier a b := r.earlier a b ∨ s.earlier a b
  within a b h := by
    rw [mem_append_names, mem_append_names]
    obtain h | h := h
    · exact ⟨.inl (r.within a b h).1, .inl (r.within a b h).2⟩
    · exact ⟨.inr (s.within a b h).1, .inr (s.within a b h).2⟩

variable {r s q : Region ν} {a b : ν}

@[simp] theorem standing_seq : (r.seq s).standing = r.standing ++ s.standing := rfl

@[simp] theorem fresh_seq : (r.seq s).fresh = r.fresh ++ s.fresh := rfl

@[simp] theorem standing_par : (r.par s).standing = r.standing ++ s.standing := rfl

@[simp] theorem fresh_par : (r.par s).fresh = r.fresh ++ s.fresh := rfl

theorem mem_names_seq : a ∈ (r.seq s).names ↔ a ∈ r.names ∨ a ∈ s.names := mem_append_names

theorem mem_names_par : a ∈ (r.par s).names ↔ a ∈ r.names ∨ a ∈ s.names := mem_append_names

theorem empty_seq : empty.seq r = r := by
  ext a b
  · rfl
  · rfl
  · simp [seq, empty, names]

theorem seq_empty : r.seq empty = r := by
  ext a b
  · simp [seq, empty]
  · simp [seq, empty]
  · simp [seq, empty, names]

theorem empty_par : empty.par r = r := by
  ext a b
  · rfl
  · rfl
  · simp [par, empty]

theorem seq_assoc : (r.seq s).seq q = r.seq (s.seq q) := by
  ext a b
  · simp [seq]
  · simp [seq]
  · simp only [seq, names, List.mem_append]
    tauto

variable [DecidableEq ν]

/-- No name is there twice. -/
def Simple (r : Region ν) : Prop := ∀ a, r.standing.count a + r.fresh.count a ≤ 1

theorem mem_names : a ∈ r.names ↔ 0 < r.standing.count a + r.fresh.count a := by
  rw [names, ← List.count_pos_iff, List.count_append]

theorem not_mem_names : a ∉ r.names ↔ r.standing.count a = 0 ∧ r.fresh.count a = 0 := by
  rw [mem_names]
  omega

/-- Two regions have no name in common. -/
def Apart (r s : Region ν) : Prop := ∀ a, a ∈ r.names → a ∉ s.names

omit [DecidableEq ν] in
theorem Apart.symm (h : r.Apart s) : s.Apart r := fun a hs hr => h a hr hs

theorem simple_append (h : ∀ a, (r.standing ++ s.standing).count a + (r.fresh ++ s.fresh).count a ≤ 1) :
    r.Simple ∧ s.Simple ∧ r.Apart s := by
  simp only [List.count_append] at h
  refine ⟨fun a => ?_, fun a => ?_, fun a hr hs => ?_⟩
  · have := h a
    omega
  · have := h a
    omega
  · rw [mem_names] at hr hs
    have := h a
    omega

theorem Simple.seq (h : (r.seq s).Simple) : r.Simple ∧ s.Simple ∧ r.Apart s := simple_append h

theorem Simple.par (h : (r.par s).Simple) : r.Simple ∧ s.Simple ∧ r.Apart s := simple_append h

end Region

variable {ν : Type} [DecidableEq ν]

/-- The trace takes the one region to the other. -/
structure Keeps (r : Region ν) (t : List (Event ν)) (r' : Region ν) : Prop where
  within : ∀ e ∈ t, e.name ∈ r.names
  once : ∀ a, t.count (.did a) + r'.fresh.count a ≤ r.fresh.count a
  balance : ∀ a, r.standing.count a + t.count (.did a) = t.count (.undid a) + r'.standing.count a
  undoes : ∀ x y, t = x ++ y → ∀ a, x.count (.undid a) ≤ r.standing.count a + x.count (.did a)
  reverse : ∀ x y a b, t = x ++ .undid a :: y → r.earlier a b →
    r.standing.count b + x.count (.did b) = x.count (.undid b)
  order : ∀ a b, a ∈ r'.names → b ∈ r'.names → r.earlier a b → r'.earlier a b

namespace Keeps

variable {r r' r'' s s' : Region ν} {t u w : List (Event ν)} {a b : ν}

theorem nil : Keeps r [] r where
  within _ h := by cases h
  once _ := by simp
  balance _ := by simp
  undoes x y h a := by
    obtain ⟨rfl, -⟩ := List.append_eq_nil_iff.mp h.symm
    simp
  reverse x y a b h := by simp at h
  order _ _ _ _ h := h

theorem names (h : Keeps r t r') (a : ν) :
    r'.standing.count a + r'.fresh.count a ≤ r.standing.count a + r.fresh.count a := by
  have := h.once a
  have := h.balance a
  omega

theorem mem_names (h : Keeps r t r') (ha : a ∈ r'.names) : a ∈ r.names := by
  rw [Region.mem_names] at ha ⊢
  exact Nat.lt_of_lt_of_le ha (h.names a)

theorem simple (h : Keeps r t r') (hr : r.Simple) : r'.Simple := fun a => Nat.le_trans (h.names a) (hr a)

theorem count_did (h : Keeps r t r') (ha : a ∉ r.names) : t.count (.did a) = 0 :=
  List.count_eq_zero.mpr fun hmem => ha (h.within _ hmem)

theorem count_undid (h : Keeps r t r') (ha : a ∉ r.names) : t.count (.undid a) = 0 :=
  List.count_eq_zero.mpr fun hmem => ha (h.within _ hmem)

omit [DecidableEq ν] in
/-- An event of two traces run one after the other is in the one or in the other. -/
theorem cut_at {x y : List (Event ν)} {e : Event ν} (h : t ++ u = x ++ e :: y) :
    (∃ m, x = t ++ m ∧ u = m ++ e :: y) ∨ ∃ m, t = x ++ e :: m := by
  obtain hleft | ⟨m, rfl, hm⟩ := List.append_eq_append_iff.mp h
  · exact .inl hleft
  · cases m with
    | nil => exact .inl ⟨[], by simp, hm.symm⟩
    | cons e' m =>
      rw [List.cons_append, List.cons.injEq] at hm
      exact .inr ⟨m, by rw [hm.1]⟩

/-- One trace after another. -/
theorem trans (h : Keeps r t r') (h' : Keeps r' u r'') : Keeps r (t ++ u) r'' where
  within e he := by
    obtain he | he := List.mem_append.mp he
    · exact h.within e he
    · exact h.mem_names (h'.within e he)
  once a := by
    have := h.once a
    have := h'.once a
    rw [List.count_append]
    omega
  balance a := by
    have := h.balance a
    have := h'.balance a
    rw [List.count_append, List.count_append]
    omega
  undoes x y hxy a := by
    obtain ⟨m, hx, hu⟩ | ⟨m, ht, hy⟩ := List.append_eq_append_iff.mp hxy
    · have := h.balance a
      have := h'.undoes m y hu a
      rw [hx, List.count_append, List.count_append]
      omega
    · exact h.undoes x m ht a
  reverse x y a b hxy hab := by
    obtain ⟨m, rfl, hu⟩ | ⟨m, ht⟩ := cut_at hxy
    · have hbalance := h.balance b
      rw [List.count_append, List.count_append]
      by_cases hb : b ∈ r'.names
      · have ha : a ∈ r'.names := h'.within (.undid a) (by simp [hu])
        have := h'.reverse m y a b hu (h.order a b ha hb hab)
        omega
      · have hstanding := (Region.not_mem_names.mp hb).1
        have hdid := h'.count_did hb
        have hundid := h'.count_undid hb
        rw [hu, List.count_append] at hdid hundid
        omega
    · exact h.reverse x m a b ht hab
  order a b ha hb hab :=
    h'.order a b ha hb (h.order a b (h'.mem_names ha) (h'.mem_names hb) hab)

/-- What may no longer be done may be left out. -/
theorem weaken (h : Keeps r t r') (hstanding : ∀ a, r''.standing.count a = r'.standing.count a)
    (hfresh : ∀ a, r''.fresh.count a ≤ r'.fresh.count a)
    (hearlier : ∀ a b, a ∈ r''.names → b ∈ r''.names → r'.earlier a b → r''.earlier a b) :
    Keeps r t r'' where
  within := h.within
  once a := by
    have := h.once a
    have := hfresh a
    omega
  balance a := by
    rw [hstanding]
    exact h.balance a
  undoes := h.undoes
  reverse := h.reverse
  order a b ha hb hab := by
    have hnames : ∀ c, c ∈ r''.names → c ∈ r'.names := by
      intro c hc
      rw [Region.mem_names] at hc ⊢
      have := hstanding c
      have := hfresh c
      omega
    exact hearlier a b ha hb (h.order a b (hnames a ha) (hnames b hb) hab)

theorem forget (h : Keeps r t r') (hstanding : r'.standing = []) : Keeps r t .empty :=
  h.weaken (fun _ => by rw [hstanding]; rfl) (fun _ => Nat.zero_le _) fun _ _ ha => by cases ha

theorem count_standing (ha : a ∉ r.names) : r.standing.count a = 0 := (Region.not_mem_names.mp ha).1

/-- The order of one of two regions side by side is kept whatever is done in the other. -/
theorem reverse_beside (h : Keeps r t r') (h' : Keeps s u s') (hw : Shuffle t u w) (hrs : r.Apart s)
    {x y : List (Event ν)} (hxy : w = x ++ .undid a :: y) (hab : r.earlier a b) :
    r.standing.count b + s.standing.count b + x.count (.did b) = x.count (.undid b) := by
  obtain ⟨ha, hb⟩ := r.within a b hab
  obtain ⟨t₁, t₂, u₁, u₂, rfl, rfl, hx, hy⟩ := (hxy ▸ hw).split
  have hstanding := count_standing (hrs b hb)
  have hdid := h'.count_did (hrs b hb)
  have hundid := h'.count_undid (hrs b hb)
  rw [List.count_append] at hdid hundid
  rw [hx.count_eq, hx.count_eq]
  cases hy with
  | left hy =>
    have := h.reverse _ _ a b rfl hab
    omega
  | right hy => exact absurd (h'.within (.undid a) (by simp)) (hrs a ha)

theorem mem_left (h' : Keeps s u s') (hrs : r.Apart s) (ha : a ∈ r.names)
    (hmem : a ∈ r'.names ∨ a ∈ s'.names) : a ∈ r'.names :=
  hmem.resolve_right fun hs => hrs a ha (h'.mem_names hs)

theorem beside (h : Keeps r t r') (h' : Keeps s u s') (hw : Shuffle t u w) (hrs : r.Apart s) :
    Keeps (r.par s) w (r'.par s') where
  within e he := by
    rw [Region.mem_names_par]
    obtain he | he := hw.mem_iff.mp he
    · exact .inl (h.within e he)
    · exact .inr (h'.within e he)
  once a := by
    have := h.once a
    have := h'.once a
    simp only [Region.par, List.count_append, hw.count_eq]
    omega
  balance a := by
    have := h.balance a
    have := h'.balance a
    simp only [Region.par, List.count_append, hw.count_eq]
    omega
  undoes x y hxy a := by
    obtain ⟨t₁, t₂, u₁, u₂, rfl, rfl, hx, -⟩ := (hxy ▸ hw).split
    have := h.undoes t₁ t₂ rfl a
    have := h'.undoes u₁ u₂ rfl a
    simp only [Region.par, List.count_append, hx.count_eq]
    omega
  reverse x y a b hxy hab := by
    simp only [Region.par, List.count_append]
    obtain hab | hab := hab
    · exact h.reverse_beside h' hw hrs hxy hab
    · have := h'.reverse_beside h hw.symm hrs.symm hxy hab
      omega
  order a b ha hb hab := by
    rw [Region.mem_names_par] at ha hb
    obtain hab | hab := hab
    · obtain ⟨har, hbr⟩ := r.within a b hab
      exact .inl (h.order a b (h'.mem_left hrs har ha) (h'.mem_left hrs hbr hb) hab)
    · obtain ⟨has, hbs⟩ := s.within a b hab
      exact .inr (h'.order a b (h.mem_left hrs.symm has ha.symm) (h.mem_left hrs.symm hbs hb.symm) hab)

/-- Two regions in series are kept as they would be side by side, if nothing of the first is undone
while something of the second is standing. -/
theorem in_series (h : Keeps r t r') (h' : Keeps s u s') (hw : Shuffle t u w) (hrs : r.Apart s)
    (hcross : ∀ x y a b, w = x ++ .undid a :: y → a ∈ r.names → b ∈ s.names →
      s.standing.count b + x.count (.did b) = x.count (.undid b)) :
    Keeps (r.seq s) w (r'.seq s') where
  within e he := (h.beside h' hw hrs).within e he
  once := (h.beside h' hw hrs).once
  balance := (h.beside h' hw hrs).balance
  undoes := (h.beside h' hw hrs).undoes
  reverse x y a b hxy hab := by
    obtain hab | hab | ⟨ha, hb⟩ := hab
    · exact (h.beside h' hw hrs).reverse x y a b hxy (.inl hab)
    · exact (h.beside h' hw hrs).reverse x y a b hxy (.inr hab)
    · have := count_standing (hrs.symm b hb)
      have := hcross x y a b hxy ha hb
      simp only [Region.seq, List.count_append]
      omega
  order a b ha hb hab := by
    obtain hab | hab | ⟨har, hbs⟩ := hab
    · exact ((h.beside h' hw hrs).order a b ha hb (.inl hab)).imp_right .inl
    · exact ((h.beside h' hw hrs).order a b ha hb (.inr hab)).imp_right .inl
    · rw [Region.mem_names_seq] at ha hb
      exact .inr (.inr ⟨h'.mem_left hrs har ha, h.mem_left hrs.symm hbs hb.symm⟩)

/-- The first of two regions, while nothing of the second is standing. -/
theorem first (h : Keeps r t r') (hrs : r.Apart s) (hs : s.standing = []) :
    Keeps (r.seq s) t (r'.seq s) := by
  refine h.in_series .nil (.nil_right t) hrs fun x y a b hxy _ hb => ?_
  have hdid := h.count_did (hrs.symm b hb)
  have hundid := h.count_undid (hrs.symm b hb)
  rw [hxy, List.count_append] at hdid hundid
  rw [hs, List.count_nil]
  omega

/-- The second of two regions, whatever is standing of the first. -/
theorem second (h : Keeps s u s') (hrs : r.Apart s) : Keeps (r.seq s) u (r.seq s') := by
  refine nil.in_series h (Shuffle.nil_right u).symm hrs fun x y a b hxy ha _ => ?_
  exact absurd (h.within (.undid a) (by rw [hxy]; simp)) (hrs a ha)

/-- The second of two regions in series is given up. -/
theorem left_of_seq (h : Keeps r t (r'.seq s)) (hs : s.standing = []) (hapart : r'.Apart s) :
    Keeps r t r' := by
  refine h.weaken (fun a => ?_) (fun a => ?_) fun a b ha hb hab => ?_
  · rw [Region.standing_seq, hs, List.append_nil]
  · rw [Region.fresh_seq, List.count_append]
    exact Nat.le_add_right _ _
  · obtain hab | hab | ⟨-, hbs⟩ := hab
    · exact hab
    · exact absurd (s.within a b hab).1 (hapart a ha)
    · exact absurd hbs (hapart b hb)

/-- A region beside which nothing is standing is given up. -/
theorem left_of_par (h : Keeps r t r') (hs : s.standing = []) (hapart : r.Apart s) :
    Keeps (r.par s) t r' := by
  refine (h.beside (nil (r := s)) (.nil_right t) hapart).weaken (fun a => ?_) (fun a => ?_)
    fun a b ha _ hab => ?_
  · rw [Region.standing_par, hs, List.append_nil]
  · rw [Region.fresh_par, List.count_append]
    exact Nat.le_add_right _ _
  · exact hab.resolve_right fun hab => hapart a (h.mem_names ha) (s.within a b hab).1

/-- What is beside a region that leaves nothing. -/
theorem right_of_par (h : Keeps r t .empty) (hapart : r.Apart s) : Keeps (r.par s) t s := by
  have hbeside := h.beside (nil (r := s)) (.nil_right t) hapart
  rwa [Region.empty_par] at hbeside

theorem did (a : ν) : Keeps (.once a) [.did a] (.done a) where
  within e he := by
    rw [List.mem_singleton.mp he]
    exact List.mem_singleton_self a
  once b := by simp [Region.once, Region.done, List.count_singleton]
  balance b := by simp [Region.once, Region.done, List.count_singleton]
  undoes x y h b := by
    have hnone : x.count (.undid b) = 0 := by
      refine List.count_eq_zero.mpr fun hmem => ?_
      have hmem : Event.undid b ∈ [Event.did a] := h ▸ List.mem_append_left y hmem
      cases List.mem_singleton.mp hmem
    omega
  reverse _ _ _ _ _ h := h.elim
  order _ _ _ _ h := h.elim

theorem failed (a : ν) : Keeps (.once a) [] .empty :=
  nil.forget rfl

theorem undid (a : ν) : Keeps (.done a) [.undid a] .empty where
  within e he := by
    rw [List.mem_singleton.mp he]
    exact List.mem_singleton_self a
  once b := by simp [Region.empty, Region.done]
  balance b := by simp [Region.empty, Region.done, List.count_singleton]
  undoes x y h b := by
    have hle : x.count (.undid b) ≤ [Event.undid a].count (.undid b) := by
      rw [h, List.count_append]
      exact Nat.le_add_right _ _
    simp only [Region.done, List.count_singleton, beq_iff_eq, Event.undid.injEq] at hle ⊢
    omega
  reverse _ _ _ _ _ h := h.elim
  order _ _ _ _ h := h.elim

end Keeps

end AsceticDdd.Compensation
