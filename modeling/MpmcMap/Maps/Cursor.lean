import MpmcMap.Maps.Finite

/-!
# Cursors in lists that change

A loop goes through a list of distinct keys by a cursor that knows the key it is at and nothing
else. Between two steps keys may come and go anywhere; those that stay keep their order. As long as
the key under the cursor stays as well, the loop comes to every key that is there all the time.
-/

namespace MpmcMap.Maps

variable {Key σ : Type}

/-! ## Lists of keys -/

/-- The list has the key `k`. -/
def HasKey (eq : Key → Key → Bool) (L : List Key) (k : Key) : Prop := ∃ a ∈ L, eq a k = true

/-- What comes behind the key `k`. -/
def behind (eq : Key → Key → Bool) (L : List Key) (k : Key) : List Key :=
  (L.dropWhile fun a => !eq a k).tail

/-- One change: a key comes or goes, or is replaced by an equal one, or all of them go. -/
inductive Edit (eq : Key → Key → Bool) (L : List Key) : List Key → Prop where
  | same : Edit eq L L
  | assign {A B : List Key} {k k' : Key} : L = A ++ k :: B → eq k k' = true →
      Edit eq L (A ++ k' :: B)
  | insert {A B : List Key} {k : Key} : L = A ++ B → ¬ HasKey eq L k → Edit eq L (A ++ k :: B)
  | remove {A B : List Key} {k : Key} : L = A ++ k :: B → Edit eq L (A ++ B)
  | clear : Edit eq L []

section Lists

variable {eq : Key → Key → Bool} [KeyEquiv eq] {L L' M : List Key} {a k x y : Key}

omit [KeyEquiv eq] in
theorem hasKey_cons : HasKey eq (a :: L) k ↔ eq a k = true ∨ HasKey eq L k := by
  simp [HasKey]

omit [KeyEquiv eq] in
theorem HasKey.mono (h : HasKey eq L k) (hsub : L ⊆ M) : HasKey eq M k := by
  obtain ⟨a, ha, hk⟩ := h
  exact ⟨a, hsub ha, hk⟩

theorem HasKey.congr (h : HasKey eq L x) (hxy : eq x y = true) : HasKey eq L y := by
  obtain ⟨a, ha, hk⟩ := h
  exact ⟨a, ha, KeyEquiv.trans _ _ _ hk hxy⟩

/-- The head of a list of distinct keys is the only one of its key. -/
theorem Distinct.not_hasKey (hd : Distinct eq (a :: L)) (hk : eq a k = true) : ¬ HasKey eq L k := by
  rintro ⟨b, hb, hbk⟩
  have hab := (List.pairwise_cons.mp hd).1 b hb
  rw [KeyEquiv.trans _ _ _ hk (KeyEquiv.symm _ _ hbk)] at hab
  cases hab

omit [KeyEquiv eq] in
theorem behind_cons_pos (hk : eq a k = true) : behind eq (a :: L) k = L := by
  unfold behind
  rw [List.dropWhile_cons_of_neg (by simp [hk])]
  rfl

omit [KeyEquiv eq] in
theorem behind_cons_neg (hk : eq a k = false) : behind eq (a :: L) k = behind eq L k := by
  unfold behind
  rw [List.dropWhile_cons_of_pos (by simp [hk])]

omit [KeyEquiv eq] in
theorem behind_sublist (L : List Key) (k : Key) : (behind eq L k).Sublist L :=
  (List.tail_sublist _).trans (List.dropWhile_sublist _)

/-- No key is behind itself. -/
theorem Distinct.not_behind (hd : Distinct eq L) (hxy : eq x y = true) :
    ¬ HasKey eq (behind eq L x) y := by
  induction L with
  | nil =>
    rintro ⟨b, hb, -⟩
    cases hb
  | cons a L ih =>
    cases hx : eq a x with
    | true =>
      rw [behind_cons_pos hx]
      exact hd.not_hasKey (KeyEquiv.trans _ _ _ hx hxy)
    | false =>
      rw [behind_cons_neg hx]
      exact ih (List.pairwise_cons.mp hd).2

/-- What comes behind the next key. -/
theorem Distinct.behind_behind {T : List Key} (hd : Distinct eq L) (hb : behind eq L k = x :: T) :
    behind eq L x = T := by
  induction L with
  | nil => cases hb
  | cons a L ih =>
    cases hk : eq a k with
    | true =>
      rw [behind_cons_pos hk] at hb
      subst hb
      have hax := (List.pairwise_cons.mp hd).1 x (by simp)
      rw [behind_cons_neg hax, behind_cons_pos (KeyEquiv.refl x)]
    | false =>
      rw [behind_cons_neg hk] at hb
      have hx : x ∈ behind eq L k := hb ▸ List.mem_cons_self
      have hmem : x ∈ L := (behind_sublist L k).subset hx
      rw [behind_cons_neg ((List.pairwise_cons.mp hd).1 x hmem)]
      exact ih (List.pairwise_cons.mp hd).2 hb

/-- The order of two keys is the same in a list with fewer keys. -/
theorem Distinct.behind_iff (hd : Distinct eq L) (hs : M.Sublist L) (hx : HasKey eq M x)
    (hy : HasKey eq M y) : HasKey eq (behind eq M x) y ↔ HasKey eq (behind eq L x) y := by
  induction hs with
  | slnil => exact Iff.rfl
  | @cons M L a hs ih =>
    obtain ⟨b, hb, hbx⟩ := hx
    have hax : eq a x = false := by
      rw [Bool.eq_false_iff]
      intro hax
      exact hd.not_hasKey hax ⟨b, hs.subset hb, hbx⟩
    rw [behind_cons_neg hax]
    exact ih (List.pairwise_cons.mp hd).2 ⟨b, hb, hbx⟩ hy
  | @cons_cons M L a hs ih =>
    have hdL := (List.pairwise_cons.mp hd).2
    cases hax : eq a x with
    | true =>
      rw [behind_cons_pos hax, behind_cons_pos hax]
      refine ⟨fun h => h.mono hs.subset, fun h => ?_⟩
      exact (hasKey_cons.mp hy).resolve_left fun hay => hd.not_hasKey hay h
    | false =>
      rw [behind_cons_neg hax, behind_cons_neg hax]
      have hxM := (hasKey_cons.mp hx).resolve_left (by simp [hax])
      cases hay : eq a y with
      | true =>
        -- nothing else is the key `y`
        have hno := hd.not_hasKey hay
        refine iff_of_false (fun h => ?_) fun h => hno (h.mono (behind_sublist L x).subset)
        exact hno (h.mono (List.Subset.trans (behind_sublist M x).subset hs.subset))
      | false =>
        exact ih hdL hxM ((hasKey_cons.mp hy).resolve_left (by simp [hay]))

theorem KeyEquiv.congr_left (h : eq x y = true) (k : Key) : eq x k = eq y k := by
  rw [Bool.eq_iff_iff]
  exact ⟨KeyEquiv.trans _ _ _ (KeyEquiv.symm _ _ h), KeyEquiv.trans _ _ _ h⟩

/-- An equal key in the same place. -/
theorem behind_assign {A B : List Key} (h : eq x y = true) :
    HasKey eq (behind eq (A ++ y :: B) k) a ↔ HasKey eq (behind eq (A ++ x :: B) k) a := by
  have hhead := KeyEquiv.congr_left h
  induction A with
  | nil =>
    cases hk : eq x k with
    | true => rw [List.nil_append, behind_cons_pos (hhead k ▸ hk), List.nil_append,
        behind_cons_pos hk]
    | false => rw [List.nil_append, behind_cons_neg (hhead k ▸ hk), List.nil_append,
        behind_cons_neg hk]
  | cons b A ih =>
    rw [List.cons_append, List.cons_append]
    cases hk : eq b k with
    | true =>
      rw [behind_cons_pos hk, behind_cons_pos hk]
      simp only [HasKey, List.mem_append, List.mem_cons, or_and_right, exists_or, exists_eq_left,
        hhead a]
    | false =>
      rw [behind_cons_neg hk, behind_cons_neg hk]
      exact ih

theorem Edit.distinct (hd : Distinct eq L) (he : Edit eq L L') : Distinct eq L' := by
  cases he with
  | same => exact hd
  | @assign A B k k' hL hk =>
    subst hL
    have hcons := (List.perm_middle.pairwise_iff fun h => KeyEquiv.ne_symm h).mp hd
    refine (List.perm_middle.pairwise_iff fun h => KeyEquiv.ne_symm h).mpr ?_
    obtain ⟨hfirst, hrest⟩ := List.pairwise_cons.mp hcons
    refine List.pairwise_cons.mpr ⟨fun b hb => ?_, hrest⟩
    rw [← KeyEquiv.congr_left hk]
    exact hfirst b hb
  | @insert A B k hL hk =>
    subst hL
    have hfresh : ∀ b ∈ A ++ B, eq k b = false := by
      intro b hb
      rw [Bool.eq_false_iff]
      exact fun hkb => hk ⟨b, hb, KeyEquiv.symm _ _ hkb⟩
    have hcons : Distinct eq (k :: (A ++ B)) := List.pairwise_cons.mpr ⟨hfresh, hd⟩
    exact (List.perm_middle.pairwise_iff fun h => KeyEquiv.ne_symm h).mpr hcons
  | @remove A B k hL =>
    subst hL
    exact hd.sublist ((List.Sublist.refl A).append (List.sublist_cons_self k B))
  | clear => exact List.Pairwise.nil

/-- Keys that stay keep their order. -/
theorem Edit.behind_iff (hd : Distinct eq L) (he : Edit eq L L') (hx : HasKey eq L x)
    (hy : HasKey eq L y) (hx' : HasKey eq L' x) (hy' : HasKey eq L' y) :
    HasKey eq (behind eq L' x) y ↔ HasKey eq (behind eq L x) y := by
  have hd' := he.distinct hd
  cases he with
  | same => exact Iff.rfl
  | @assign A B k k' hL hk =>
    subst hL
    exact behind_assign hk
  | @insert A B k hL hk =>
    subst hL
    have hs : (A ++ B).Sublist (A ++ k :: B) :=
      (List.Sublist.refl A).append (List.sublist_cons_self k B)
    exact (hd'.behind_iff hs hx hy).symm
  | @remove A B k hL =>
    subst hL
    have hs : (A ++ B).Sublist (A ++ k :: B) :=
      (List.Sublist.refl A).append (List.sublist_cons_self k B)
    exact hd.behind_iff hs hx' hy'
  | clear =>
    obtain ⟨b, hb, -⟩ := hx'
    cases hb

end Lists

/-! ## Loops -/

/-- One place of a cursor: the key there, or none at the end; the state in which it came there, and
the states until it went on, the latest one first. -/
structure Stop (σ Key : Type) where
  cursor : Option Key
  arrival : σ
  later : List σ

namespace Stop

variable (keys : σ → List Key) (eq : Key → Key → Bool) (p : Stop σ Key) (k : Key)

/-- The latest state. -/
def now : σ := p.later.headD p.arrival

/-- The key `k` is there all the time. -/
def Keeps : Prop := ∀ s ∈ p.arrival :: p.later, HasKey eq (keys s) k

/-- The key `k` under the cursor is there, and no key that is there all the time has come to its
other side. -/
def InPlace : Prop :=
  HasKey eq (keys p.now) k ∧ ∀ y, p.Keeps keys eq y →
    (HasKey eq (behind eq (keys p.now) k) y ↔ HasKey eq (behind eq (keys p.arrival) k) y)

/-- The key under the cursor has stayed where it is. -/
def Undisturbed : Prop := p.Keeps keys eq k ∨ p.InPlace keys eq k

end Stop

section Loops

variable (keys : σ → List Key) (eq : Key → Key → Bool)

/-- The loops, stop by stop, the latest one first. -/
inductive Loop : List (Stop σ Key) → Prop where
  | begin (s : σ) : Distinct eq (keys s) → Loop [⟨(keys s).head?, s, []⟩]
  | edit {p : Stop σ Key} {its : List (Stop σ Key)} {s : σ} : Loop (p :: its) →
      Edit eq (keys p.now) (keys s) → Loop ({ p with later := s :: p.later } :: its)
  | next {p : Stop σ Key} {its : List (Stop σ Key)} {k : Key} {s : σ} : Loop (p :: its) →
      p.cursor = some k → p.Undisturbed keys eq k → keys s = keys p.now →
      Loop (⟨(behind eq (keys p.now) k).head?, s, []⟩ :: p :: its)

/-- The keys that a loop has visited, the latest one first. -/
def visited (its : List (Stop σ Key)) : List Key := its.filterMap Stop.cursor

/-- If the loop has been at `x`, then `x` has been absent since. -/
def Left (x : Key) : List (Stop σ Key) → Prop
  | [] => True
  | p :: its => ¬ p.Keeps keys eq x ∨ (∀ k ∈ p.cursor, eq k x = false) ∧ Left x its

/-- No key is visited again without having been absent. -/
def Apart : List (Stop σ Key) → Prop
  | [] => True
  | p :: its => (∀ k ∈ p.cursor, Left keys eq k its) ∧ Apart its

/-- What a weakly consistent loop promises at the stop `p`. -/
structure WeaklyConsistent (p : Stop σ Key) (its : List (Stop σ Key)) : Prop where
  /-- What has been erased is skipped. -/
  present : ∀ q ∈ p :: its, ∀ k ∈ q.cursor, k ∈ keys q.arrival
  apart : Apart keys eq (p :: its)
  /-- At the end, nothing that has stayed comes behind the last key. -/
  ended : p.cursor = none → ∀ q ∈ its.head?, ∀ k ∈ q.cursor, ∀ y, q.Keeps keys eq y →
    ¬ HasKey eq (behind eq (keys q.arrival) k) y
  once : p.cursor = none → ∀ y, (∀ q ∈ p :: its, q.Keeps keys eq y) →
    (visited (p :: its)).countP (fun a => eq a y) = 1

/-- What a loop at the stop `p` knows. -/
structure Tour (p : Stop σ Key) (its : List (Stop σ Key)) : Prop where
  distinct : Distinct eq (keys p.now)
  arrived : Distinct eq (keys p.arrival)
  present : ∀ q ∈ p :: its, ∀ k ∈ q.cursor, k ∈ keys q.arrival
  steady : ∀ x y, p.Keeps keys eq x → p.Keeps keys eq y →
    (HasKey eq (behind eq (keys p.now) x) y ↔ HasKey eq (behind eq (keys p.arrival) x) y)
  /-- What has been visited and has stayed is not ahead. -/
  passed : ∀ k ∈ p.cursor, ∀ x, ¬ Left keys eq x (p :: its) →
    ¬ HasKey eq (behind eq (keys p.arrival) k) x
  /-- What has been there all the time has been visited or is ahead. -/
  cover : ∀ y, (∀ q ∈ p :: its, q.Keeps keys eq y) → (∃ a ∈ visited (p :: its), eq a y = true) ∨
    ∃ k ∈ p.cursor, HasKey eq (behind eq (keys p.arrival) k) y
  apart : Apart keys eq (p :: its)
  ended : p.cursor = none → ∀ q ∈ its.head?, ∀ k ∈ q.cursor, ∀ y, q.Keeps keys eq y →
    ¬ HasKey eq (behind eq (keys q.arrival) k) y

variable {keys eq} [KeyEquiv eq] {p : Stop σ Key} {its : List (Stop σ Key)} {k x y : Key} {s : σ}

omit [KeyEquiv eq] in
theorem Stop.Keeps.hasKey_now (h : p.Keeps keys eq k) : HasKey eq (keys p.now) k := by
  unfold Stop.now
  cases hl : p.later with
  | nil => exact h _ (by simp)
  | cons s l => exact h s (by simp [hl])

theorem Stop.Keeps.congr (h : p.Keeps keys eq x) (hxy : eq x y = true) : p.Keeps keys eq y :=
  fun s hs => (h s hs).congr hxy

omit [KeyEquiv eq] in
/-- What is there after one more change has been there before. -/
theorem Stop.Keeps.before (h : Stop.Keeps keys eq { p with later := s :: p.later } k) :
    p.Keeps keys eq k ∧ HasKey eq (keys s) k := by
  refine ⟨fun u hu => h u ?_, h s (by simp)⟩
  rcases List.mem_cons.mp hu with rfl | hu
  · simp
  · simp [hu]

omit [KeyEquiv eq] in
theorem not_left : ¬ Left keys eq x (p :: its) ↔
    p.Keeps keys eq x ∧ ((∃ k ∈ p.cursor, eq k x = true) ∨ ¬ Left keys eq x its) := by
  simp only [Left, not_or, not_not, not_and_or, not_forall, Bool.not_eq_false, exists_prop]

omit [KeyEquiv eq] in
theorem not_left_before (h : ¬ Left keys eq x ({ p with later := s :: p.later } :: its)) :
    ¬ Left keys eq x (p :: its) := by
  rw [not_left] at h ⊢
  exact ⟨h.1.before.1, h.2⟩

omit [KeyEquiv eq] in
theorem visited_none (h : p.cursor = none) : visited (p :: its) = visited its :=
  List.filterMap_cons_none h

omit [KeyEquiv eq] in
theorem visited_some (h : p.cursor = some k) : visited (p :: its) = k :: visited its :=
  List.filterMap_cons_some h

/-! ### The first key -/

theorem tour_begin (hd : Distinct eq (keys s)) : Tour keys eq ⟨(keys s).head?, s, []⟩ [] where
  distinct := hd
  arrived := hd
  present := by
    intro q hq k hk
    rw [List.mem_singleton] at hq
    subst hq
    exact List.mem_of_mem_head? hk
  steady _ _ _ _ := Iff.rfl
  passed := by
    intro k hk x hx
    obtain ⟨-, ⟨k', hk', hkx⟩ | hx⟩ := not_left.mp hx
    · obtain rfl := Option.mem_unique hk hk'
      exact hd.not_behind hkx
    · exact absurd trivial hx
  cover := by
    intro y hy
    have hys : HasKey eq (keys s) y := hy _ (List.mem_singleton_self _) s List.mem_cons_self
    cases hL : keys s with
    | nil =>
      rw [hL] at hys
      obtain ⟨b, hb, -⟩ := hys
      cases hb
    | cons a L =>
      rw [hL, hasKey_cons] at hys
      rcases hys with hay | hys
      · exact .inl ⟨a, by simp [visited], hay⟩
      · refine .inr ⟨a, rfl, ?_⟩
        rw [behind_cons_pos (KeyEquiv.refl a)]
        exact hys
  apart := ⟨fun _ _ => trivial, trivial⟩
  ended _ := by simp

/-! ### A change -/

theorem Tour.edit (h : Tour keys eq p its) (he : Edit eq (keys p.now) (keys s)) :
    Tour keys eq { p with later := s :: p.later } its where
  distinct := he.distinct h.distinct
  arrived := h.arrived
  present := by
    intro q hq k hk
    rcases List.mem_cons.mp hq with rfl | hq
    · exact h.present p (by simp) k hk
    · exact h.present q (by simp [hq]) k hk
  steady := by
    intro x y hx hy
    obtain ⟨hx, hxs⟩ := hx.before
    obtain ⟨hy, hys⟩ := hy.before
    exact (he.behind_iff h.distinct hx.hasKey_now hy.hasKey_now hxs hys).trans (h.steady x y hx hy)
  passed k hk x hx := h.passed k hk x (not_left_before hx)
  cover := by
    intro y hy
    refine h.cover y fun q hq => ?_
    rcases List.mem_cons.mp hq with rfl | hq
    · exact (hy _ List.mem_cons_self).before.1
    · exact hy q (by simp [hq])
  apart := h.apart
  ended := h.ended

/-! ### A step -/

omit [KeyEquiv eq] in
/-- A key that stays where it is has kept the order to all that stay. -/
theorem Tour.undisturbed (h : Tour keys eq p its) (hu : p.Undisturbed keys eq k) :
    p.InPlace keys eq k := by
  rcases hu with hk | hk
  · exact ⟨hk.hasKey_now, fun y hy => h.steady k y hk hy⟩
  · exact hk

theorem Tour.next (h : Tour keys eq p its) (hk : p.cursor = some k)
    (hu : p.Undisturbed keys eq k) (hs : keys s = keys p.now) :
    Tour keys eq ⟨(behind eq (keys p.now) k).head?, s, []⟩ (p :: its) := by
  obtain ⟨-, hplace⟩ := h.undisturbed hu
  have hds : Distinct eq (keys s) := hs ▸ h.distinct
  -- behind the next key comes the rest of what comes behind this one
  have hnext : ∀ x ∈ (behind eq (keys p.now) k).head?,
      behind eq (keys p.now) k = x :: behind eq (keys s) x := by
    intro x hx
    cases hb : behind eq (keys p.now) k with
    | nil =>
      rw [hb] at hx
      cases hx
    | cons a T =>
      rw [hb] at hx
      obtain rfl := Option.some.inj hx
      rw [hs, h.distinct.behind_behind hb]
  constructor
  · exact hds
  · exact hds
  · intro q hq x hx
    rcases List.mem_cons.mp hq with rfl | hq
    · show x ∈ keys s
      rw [hs]
      exact (behind_sublist _ k).subset (List.mem_of_mem_head? hx)
    · exact h.present q hq x hx
  · exact fun _ _ _ _ => Iff.rfl
  · intro x' hx' x hx
    obtain ⟨-, ⟨k', hk', hkx⟩ | hx⟩ := not_left.mp hx
    · obtain rfl := Option.mem_unique hx' hk'
      exact hds.not_behind hkx
    · -- what is not behind the last key is not behind the next one
      intro hmem
      have hold := h.passed k hk x hx
      rw [← hplace x (not_left.mp hx).1, hnext x' hx'] at hold
      exact hold (hasKey_cons.mpr (.inr hmem))
  · intro y hy
    rcases h.cover y fun q hq => hy q (List.mem_cons_of_mem _ hq) with ⟨a, ha, hay⟩ | ⟨k', hk', hb⟩
    · refine .inl ⟨a, ?_, hay⟩
      exact List.Sublist.subset (List.Sublist.filterMap _ (List.sublist_cons_self _ _)) ha
    · obtain rfl := Option.some.inj (hk.symm.trans hk')
      rw [← hplace y (hy p (by simp))] at hb
      cases hx : (behind eq (keys p.now) k).head? with
      | none =>
        rw [List.head?_eq_none_iff.mp hx] at hb
        obtain ⟨b, hb, -⟩ := hb
        cases hb
      | some x =>
        rw [hnext x hx, hasKey_cons] at hb
        rcases hb with hxy | hb
        · exact .inl ⟨x, by simp [visited], hxy⟩
        · exact .inr ⟨x, rfl, hb⟩
  · refine ⟨fun x hx => ?_, h.apart⟩
    by_contra hleft
    have hold := h.passed k hk x hleft
    rw [← hplace x (not_left.mp hleft).1, hnext x hx] at hold
    exact hold (hasKey_cons.mpr (.inl (KeyEquiv.refl x)))
  · intro hend q hq k' hk' y hy
    obtain rfl := Option.some.inj hq
    obtain rfl := Option.some.inj (hk.symm.trans hk')
    rw [← hplace y hy, List.head?_eq_none_iff.mp hend]
    rintro ⟨b, hb, -⟩
    cases hb

/-! ### Whole loops -/

theorem Loop.tour (h : Loop keys eq (p :: its)) : Tour keys eq p its := by
  generalize hL : p :: its = L at h
  induction h generalizing p its with
  | begin s hd =>
    obtain ⟨rfl, rfl⟩ := List.cons.inj hL
    exact tour_begin hd
  | edit _ he ih =>
    obtain ⟨rfl, rfl⟩ := List.cons.inj hL
    exact (ih rfl).edit he
  | next _ hk hu hs ih =>
    obtain ⟨rfl, rfl⟩ := List.cons.inj hL
    exact (ih rfl).next hk hu hs

omit [KeyEquiv eq] in
/-- What the loop has left but is there all the time has not been visited. -/
theorem Left.not_visited (h : Left keys eq y its) (hy : ∀ q ∈ its, q.Keeps keys eq y) :
    ∀ a ∈ visited its, eq a y = false := by
  induction its with
  | nil => exact fun a ha => absurd ha List.not_mem_nil
  | cons p its ih =>
    obtain ⟨hp, hleft⟩ := h.resolve_left (not_not_intro (hy p (by simp)))
    have hold := ih hleft fun q hq => hy q (List.mem_cons_of_mem _ hq)
    intro a ha
    cases hk : p.cursor with
    | none =>
      rw [visited_none hk] at ha
      exact hold a ha
    | some k =>
      rw [visited_some hk] at ha
      rcases List.mem_cons.mp ha with rfl | ha
      · exact hp a hk
      · exact hold a ha

/-- A key that is there all the time is visited at most once. -/
theorem Apart.count_le (h : Apart keys eq its) (hy : ∀ q ∈ its, q.Keeps keys eq y) :
    (visited its).countP (fun a => eq a y) ≤ 1 := by
  induction its with
  | nil => exact Nat.zero_le 1
  | cons p its ih =>
    have hall : ∀ q ∈ its, q.Keeps keys eq y := fun q hq => hy q (List.mem_cons_of_mem _ hq)
    cases hk : p.cursor with
    | none =>
      rw [visited_none hk]
      exact ih h.2 hall
    | some k =>
      rw [visited_some hk]
      cases hky : eq k y with
      | false =>
        rw [List.countP_cons_of_neg (by simp [hky])]
        exact ih h.2 hall
      | true =>
        have hkeep : ∀ q ∈ its, q.Keeps keys eq k := fun q hq =>
          (hall q hq).congr (KeyEquiv.symm _ _ hky)
        have hzero : (visited its).countP (fun a => eq a y) = 0 := by
          rw [List.countP_eq_zero]
          intro a ha hay
          have hak := (h.1 k hk).not_visited hkeep a ha
          rw [KeyEquiv.trans _ _ _ hay (KeyEquiv.symm _ _ hky)] at hak
          cases hak
        have hcount := List.countP_cons_of_pos (p := fun a => eq a y) (l := visited its) hky
        omega

theorem Loop.weaklyConsistent (h : Loop keys eq (p :: its)) : WeaklyConsistent keys eq p its where
  present := h.tour.present
  apart := h.tour.apart
  ended := h.tour.ended
  once := by
    intro hend y hy
    refine Nat.le_antisymm (h.tour.apart.count_le hy) ?_
    rcases h.tour.cover y hy with ⟨a, ha, hay⟩ | ⟨k, hk, -⟩
    · exact List.countP_pos_iff.mpr ⟨a, ha, hay⟩
    · rw [hend] at hk
      cases hk

end Loops

end MpmcMap.Maps
