import MpmcMap.RedBlack.Tree
import Mathlib.Algebra.Order.Ring.Int
import Mathlib.Logic.Function.Basic

/-!
# Red-black balance

Balance of a tree, and of the frames above a hole: what the tree in the hole must be for the whole
to be balanced. The color of the root is left out until the end (`Sound`): a whole tree is red-black
when it is sound and its root is black. The lemmas on insertion and deletion are about one
recoloring each; the rotations that go with them are part of the trees they speak of.
-/

namespace MpmcMap.RedBlack

/-- `color`. -/
inductive Color where
  | RED
  | BLACK
  deriving DecidableEq, Repr

theorem Color.ne_red {c : Color} : c ≠ .RED ↔ c = .BLACK := by cases c <;> simp

theorem Color.ne_black {c : Color} : c ≠ .BLACK ↔ c = .RED := by cases c <;> simp

variable {Addr : Type}

section

variable (κ : Addr → Color)

/-- The root is black; null counts as black. -/
def Dark (t : PtrTree Addr) : Prop := ∀ a, t.ptr = some a → κ a = .BLACK

/-- Black height `n`: no red node has a red child, and every path to a null slot has `n` black
nodes. -/
def Bal : PtrTree Addr → Nat → Prop
  | .nil, n => n = 0
  | .node a l r, n =>
    (κ a = .BLACK ∧ ∃ m, n = m + 1 ∧ Bal l m ∧ Bal r m) ∨
    (κ a = .RED ∧ Dark κ l ∧ Dark κ r ∧ Bal l n ∧ Bal r n)

/-- Balanced, whatever the color of the root. -/
def Sound : PtrTree Addr → Prop
  | .nil => True
  | .node _ l r => ∃ m, Bal κ l m ∧ Bal κ r m

/-- A red node may stand in the hole: the node above it is black, or the root. -/
def ParentDark : Ctx Addr → Prop
  | [] => True
  | f :: c => c = [] ∨ κ f.addr = .BLACK

/-- A tree of black height `n` in the hole makes the whole balanced, up to the colors of the nodes
just below and just above the hole. -/
def Fit : Ctx Addr → Nat → Prop
  | [], _ => True
  | f :: c, n => Bal κ f.sib n ∧
    (c = [] ∨ (κ f.addr = .BLACK ∧ Fit c (n + 1)) ∨
      (κ f.addr = .RED ∧ Dark κ f.sib ∧ ParentDark κ c ∧ Fit c n))

/-- One black too few: black height `n`, and `n + 1` once a red root is made black. -/
def Short (t : PtrTree Addr) (n : Nat) : Prop :=
  (Dark κ t ∧ Bal κ t n) ∨
    ∃ a l r, t = .node a l r ∧ κ a = .RED ∧ Bal κ l n ∧ Bal κ r n

end

variable {κ κ' : Addr → Color} {t u v : PtrTree Addr} {c : Ctx Addr} {a b : Addr} {d : Side}
  {m n : Nat}

@[simp] theorem dark_nil : Dark κ (.nil : PtrTree Addr) := fun _ h => by cases h

@[simp] theorem dark_mk : Dark κ (.mk a d t u) ↔ κ a = .BLACK := by
  simp [Dark]

@[simp] theorem bal_nil : Bal κ (.nil : PtrTree Addr) n ↔ n = 0 := Iff.rfl

theorem bal_mk : Bal κ (.mk a d t u) n ↔
    (κ a = .BLACK ∧ ∃ m, n = m + 1 ∧ Bal κ t m ∧ Bal κ u m) ∨
    (κ a = .RED ∧ Dark κ t ∧ Dark κ u ∧ Bal κ t n ∧ Bal κ u n) := by
  cases d
  · rfl
  · simp only [PtrTree.mk, Bal]
    constructor
    · rintro (⟨h, m, hm, h1, h2⟩ | ⟨h, h1, h2, h3, h4⟩)
      · exact .inl ⟨h, m, hm, h2, h1⟩
      · exact .inr ⟨h, h2, h1, h4, h3⟩
    · rintro (⟨h, m, hm, h1, h2⟩ | ⟨h, h1, h2, h3, h4⟩)
      · exact .inl ⟨h, m, hm, h2, h1⟩
      · exact .inr ⟨h, h2, h1, h4, h3⟩

theorem bal_mk_black (h : κ a = .BLACK) :
    Bal κ (.mk a d t u) (n + 1) ↔ Bal κ t n ∧ Bal κ u n := by
  simp [bal_mk, h]

theorem bal_mk_red (h : κ a = .RED) :
    Bal κ (.mk a d t u) n ↔ Dark κ t ∧ Dark κ u ∧ Bal κ t n ∧ Bal κ u n := by
  simp [bal_mk, h]

@[simp] theorem sound_mk : Sound κ (.mk a d t u) ↔ ∃ m, Bal κ t m ∧ Bal κ u m := by
  cases d
  · rfl
  · exact exists_congr fun m => And.comm

theorem Bal.sound (h : Bal κ t n) : Sound κ t := by
  cases t with
  | nil => trivial
  | node a l r =>
    rcases h with ⟨-, m, -, hl, hr⟩ | ⟨-, -, -, hl, hr⟩
    · exact ⟨m, hl, hr⟩
    · exact ⟨n, hl, hr⟩

theorem Short.sound (h : Short κ t n) : Sound κ t := by
  rcases h with ⟨-, h⟩ | ⟨a, l, r, rfl, -, hl, hr⟩
  · exact h.sound
  · exact ⟨n, hl, hr⟩

/-- A balanced tree is one black short, whatever its root. -/
theorem Bal.short (h : Bal κ t n) : Short κ t n := by
  cases t with
  | nil => exact .inl ⟨dark_nil, h⟩
  | node a l r =>
    rcases h with ⟨ha, hm⟩ | ⟨ha, -, -, hl, hr⟩
    · exact .inl ⟨fun b hb => Option.some.inj hb ▸ ha, .inl ⟨ha, hm⟩⟩
    · exact .inr ⟨a, l, r, rfl, ha, hl, hr⟩

/-! ## Colors elsewhere do not matter -/

theorem Dark.congr (h : Dark κ t) (hk : ∀ a ∈ t.addrs, κ' a = κ a) : Dark κ' t :=
  fun a ha => (hk a (PtrTree.mem_of_ptr ha)).trans (h a ha)

theorem Bal.congr (h : Bal κ t n) (hk : ∀ a ∈ t.addrs, κ' a = κ a) : Bal κ' t n := by
  induction t generalizing n with
  | nil => exact h
  | node a l r ihl ihr =>
    have ha : κ' a = κ a := hk a (by simp [PtrTree.addrs])
    have hl : ∀ b ∈ l.addrs, κ' b = κ b := fun b hb => hk b (by simp [PtrTree.addrs, hb])
    have hr : ∀ b ∈ r.addrs, κ' b = κ b := fun b hb => hk b (by simp [PtrTree.addrs, hb])
    rcases h with ⟨h, m, rfl, h1, h2⟩ | ⟨h, h1, h2, h3, h4⟩
    · exact .inl ⟨ha.trans h, m, rfl, ihl h1 hl, ihr h2 hr⟩
    · exact .inr ⟨ha.trans h, h1.congr hl, h2.congr hr, ihl h3 hl, ihr h4 hr⟩

theorem Sound.congr (h : Sound κ t) (hk : ∀ a ∈ t.addrs, t.ptr ≠ some a → κ' a = κ a)
    (hn : t.addrs.Nodup) : Sound κ' t := by
  cases t with
  | nil => trivial
  | node a l r =>
    obtain ⟨m, hl, hr⟩ := h
    simp only [PtrTree.addrs, List.nodup_append, List.nodup_cons, List.mem_cons] at hn
    refine ⟨m, hl.congr fun b hb => hk b (by simp [PtrTree.addrs, hb]) fun he => ?_,
      hr.congr fun b hb => hk b (by simp [PtrTree.addrs, hb]) fun he => ?_⟩
    · exact hn.2.2 b hb a (.inl rfl) (Option.some.inj he).symm
    · exact hn.2.1.1 (Option.some.inj he ▸ hb)

theorem Short.congr (h : Short κ t n) (hk : ∀ a ∈ t.addrs, κ' a = κ a) : Short κ' t n := by
  rcases h with ⟨h1, h2⟩ | ⟨a, l, r, rfl, ha, hl, hr⟩
  · exact .inl ⟨h1.congr hk, h2.congr hk⟩
  · refine .inr ⟨a, l, r, rfl, (hk a (by simp [PtrTree.addrs])).trans ha, hl.congr fun b hb => ?_,
      hr.congr fun b hb => ?_⟩
    · exact hk b (by simp [PtrTree.addrs, hb])
    · exact hk b (by simp [PtrTree.addrs, hb])

theorem ParentDark.congr (h : ParentDark κ c) (hk : ∀ a ∈ c.addrs, κ' a = κ a) :
    ParentDark κ' c := by
  cases c with
  | nil => trivial
  | cons f c => exact h.imp_right fun h => (hk _ List.mem_cons_self).trans h

theorem Fit.congr (h : Fit κ c n) (hk : ∀ a ∈ c.addrs, κ' a = κ a) : Fit κ' c n := by
  induction c generalizing n with
  | nil => trivial
  | cons f c ih =>
    have hf : κ' f.addr = κ f.addr := hk _ List.mem_cons_self
    have hs : ∀ b ∈ f.sib.addrs, κ' b = κ b := fun b hb =>
      hk b (List.mem_cons_of_mem _ (List.mem_append_left _ hb))
    have hc : ∀ b ∈ Ctx.addrs c, κ' b = κ b := fun b hb =>
      hk b (List.mem_cons_of_mem _ (List.mem_append_right _ hb))
    obtain ⟨h1, h2⟩ := h
    refine ⟨h1.congr hs, ?_⟩
    rcases h2 with h2 | ⟨h2, h3⟩ | ⟨h2, h3, h4, h5⟩
    · exact .inl h2
    · exact .inr (.inl ⟨hf.trans h2, ih h3 hc⟩)
    · exact .inr (.inr ⟨hf.trans h2, h3.congr hs, h4.congr hc, ih h5 hc⟩)

/-! ## The whole tree -/

theorem Fit.sound (hc : Fit κ c n) (ht : Bal κ t n) (hd : Dark κ t ∨ ParentDark κ c) :
    Sound κ (Ctx.plug t c) := by
  induction c generalizing t n with
  | nil => exact ht.sound
  | cons f c ih =>
    obtain ⟨hs, rfl | ⟨hf, hc⟩ | ⟨hf, h1, h2, h3⟩⟩ := hc
    · exact sound_mk.mpr ⟨n, ht, hs⟩
    · exact ih hc ((bal_mk_black hf).mpr ⟨ht, hs⟩) (.inl (dark_mk.mpr hf))
    · rcases hd with hd | rfl | hd
      · exact ih h3 ((bal_mk_red hf).mpr ⟨hd, h1, ht, hs⟩) (.inr h2)
      · exact sound_mk.mpr ⟨n, ht, hs⟩
      · rw [hf] at hd
        cases hd

/-- Another node of the same color may stand in a frame. -/
theorem Fit.rename {c₁ : Ctx Addr} {l : PtrTree Addr} (h : Fit κ (c₁ ++ ⟨a, d, l⟩ :: c) n)
    (hb : κ' b = κ a) (hk : ∀ z, z ∈ Ctx.addrs (c₁ ++ ⟨a, d, l⟩ :: c) → z ≠ a → κ' z = κ z)
    (hn : (Ctx.addrs (c₁ ++ ⟨a, d, l⟩ :: c)).Nodup) : Fit κ' (c₁ ++ ⟨b, d, l⟩ :: c) n := by
  induction c₁ generalizing n with
  | nil =>
    simp only [List.nil_append, Ctx.addrs, List.nodup_cons, List.mem_append, not_or] at h hn hk ⊢
    obtain ⟨⟨hal, hac⟩, -⟩ := hn
    have hl : ∀ z ∈ l.addrs, κ' z = κ z := fun z hz =>
      hk z (List.mem_cons_of_mem _ (List.mem_append_left _ hz)) fun he => hal (he ▸ hz)
    have hc : ∀ z ∈ Ctx.addrs c, κ' z = κ z := fun z hz =>
      hk z (List.mem_cons_of_mem _ (List.mem_append_right _ hz)) fun he => hac (he ▸ hz)
    obtain ⟨h1, h2 | ⟨h2, h3⟩ | ⟨h2, h3, h4, h5⟩⟩ := h
    · exact ⟨h1.congr hl, .inl h2⟩
    · exact ⟨h1.congr hl, .inr (.inl ⟨hb.trans h2, h3.congr hc⟩)⟩
    · exact ⟨h1.congr hl, .inr (.inr ⟨hb.trans h2, h3.congr hl, h4.congr hc, h5.congr hc⟩)⟩
  | cons f c₁ ih =>
    rw [List.cons_append] at h hk hn ⊢
    simp only [Ctx.addrs, List.nodup_cons, List.nodup_append, List.mem_append, not_or] at hn
    obtain ⟨⟨-, hfa⟩, -, hn', hdis⟩ := hn
    have ha : a ∈ Ctx.addrs (c₁ ++ ⟨a, d, l⟩ :: c) :=
      Ctx.mem_addrs_of_path (by simp)
    have hs : ∀ z ∈ f.sib.addrs, κ' z = κ z := fun z hz =>
      hk z (List.mem_cons_of_mem _ (List.mem_append_left _ hz)) fun he => hdis z hz a ha he
    have hf : κ' f.addr = κ f.addr := hk _ List.mem_cons_self fun he => hfa (he ▸ ha)
    have hk' : ∀ z, z ∈ Ctx.addrs (c₁ ++ ⟨a, d, l⟩ :: c) → z ≠ a → κ' z = κ z :=
      fun z hz => hk z (List.mem_cons_of_mem _ (List.mem_append_right _ hz))
    have hpd : ParentDark κ (c₁ ++ ⟨a, d, l⟩ :: c) → ParentDark κ' (c₁ ++ ⟨b, d, l⟩ :: c) := by
      intro hp
      cases c₁ with
      | nil => exact hp.imp_right fun hp => hb.trans hp
      | cons g c₁ =>
        refine .inr ?_
        have hg : g.addr ≠ a := by
          simp only [List.cons_append, Ctx.addrs, List.nodup_cons, List.mem_append, not_or] at hn'
          intro he
          exact hn'.1.2 (he ▸ Ctx.mem_addrs_of_path (by simp))
        rcases hp with hp | hp
        · simp at hp
        · exact (hk' _ List.mem_cons_self hg).trans hp
    obtain ⟨h1, h2 | ⟨h2, h3⟩ | ⟨h2, h3, h4, h5⟩⟩ := h
    · simp at h2
    · exact ⟨h1.congr hs, .inr (.inl ⟨hf.trans h2, ih h3 hk' hn'⟩)⟩
    · exact ⟨h1.congr hs, .inr (.inr ⟨hf.trans h2, h3.congr hs, hpd h4, ih h5 hk' hn'⟩)⟩

/-- What is in a hole below the root of a sound tree. -/
theorem Sound.split (h : Sound κ (Ctx.plug t c)) (hc : c ≠ []) :
    ∃ n, Bal κ t n ∧ Fit κ c n ∧ (Dark κ t ∨ ParentDark κ c) := by
  induction c generalizing t with
  | nil => exact absurd rfl hc
  | cons f c ih =>
    cases c with
    | nil =>
      obtain ⟨m, h1, h2⟩ := sound_mk.mp h
      exact ⟨m, h1, ⟨h2, .inl rfl⟩, .inr (.inl rfl)⟩
    | cons g c =>
      obtain ⟨n, h1, h2, h3⟩ := ih h (List.cons_ne_nil g c)
      rcases bal_mk.mp h1 with ⟨hf, m, rfl, ht, hs⟩ | ⟨hf, hd, hd', ht, hs⟩
      · exact ⟨m, ht, ⟨hs, .inr (.inl ⟨hf, h2⟩)⟩, .inr (.inr hf)⟩
      · have hp : ParentDark κ (g :: c) := by
          rcases h3 with h3 | h3
          · rw [dark_mk, hf] at h3
            cases h3
          · exact h3
        exact ⟨n, ht, ⟨hs, .inr (.inr ⟨hf, hd', hp, h2⟩)⟩, .inl hd⟩

/-- A node with at most one child is taken out: what is below it is one black short, or fits. -/
theorem Sound.splice {f : Frame Addr} (h : Sound κ (Ctx.plug (.mk a d t .nil) (f :: c))) :
    (κ a = .BLACK → ∃ n, Short κ t n ∧ Fit κ (f :: c) (n + 1)) ∧
    (κ a = .RED → ∃ n, Bal κ t n ∧ Dark κ t ∧ Fit κ (f :: c) n) := by
  obtain ⟨n, hb, hf, -⟩ := h.split (List.cons_ne_nil f c)
  constructor
  · intro ha
    rcases bal_mk.mp hb with ⟨-, m, rfl, ht, -⟩ | ⟨hr, -⟩
    · exact ⟨m, ht.short, hf⟩
    · rw [ha] at hr
      cases hr
  · intro ha
    obtain ⟨hd, -, ht, -⟩ := (bal_mk_red ha).mp hb
    exact ⟨n, ht, hd, hf⟩

/-! ## Insertion

`p` is the parent of the new red node, `g` its grandparent, `t` the subtree of the new node, `A` and
`U` the other subtrees of `p` and of `g`. -/

/-- The parent of a red node that violates the rule is red; its own parent is black or the root. -/
theorem Fit.grandparent {fp fg : Frame Addr} (h : Fit κ (fp :: fg :: c) n)
    (hp : κ fp.addr = .RED) :
    Bal κ fp.sib n ∧ Dark κ fp.sib ∧ Bal κ fg.sib n ∧ Fit κ c (n + 1) := by
  obtain ⟨h1, h2 | ⟨h2, -⟩ | ⟨-, h2, h3, h4, h5⟩⟩ := h
  · cases h2
  · rw [hp] at h2
    cases h2
  · refine ⟨h1, h2, h4, ?_⟩
    rcases h5 with rfl | ⟨-, h5⟩ | ⟨h5, -⟩
    · trivial
    · exact h5
    · rcases h3 with rfl | h3
      · trivial
      · rw [h3] at h5
        cases h5

section Insertion

open Function (update)

variable {p g x : Addr} {e e' : Side} {A B N U : PtrTree Addr}

/-- Case 2: the new node `x`, an inner child, is rotated above its parent `p`. -/
theorem insert_inner {f : Frame Addr} (hx : κ x = .RED) (hp : κ p = .RED)
    (ht : Bal κ (.mk x d B N) n) (hc : Fit κ (⟨p, d.flip, A⟩ :: f :: c) n) :
    Bal κ (.mk p d A B) n ∧ Fit κ (⟨x, d, N⟩ :: f :: c) n := by
  obtain ⟨hB, hN, hBn, hNn⟩ := (bal_mk_red hx).mp ht
  obtain ⟨hA, hc | ⟨hc, -⟩ | ⟨-, hA', hpd, hc⟩⟩ := hc
  · cases hc
  · rw [hp] at hc
    cases hc
  · exact ⟨(bal_mk_red hp).mpr ⟨hA', hB, hA, hBn⟩, hNn, .inr (.inr ⟨hx, hN, hpd, hc⟩)⟩

variable [DecidableEq Addr]

/-- Case 1: the uncle `b` is red. -/
theorem insert_recolor (hn : Ctx.Apart t (⟨p, e, A⟩ :: ⟨g, d, .mk b e' u v⟩ :: c))
    (ht : Bal κ t n) (hc : Fit κ (⟨p, e, A⟩ :: ⟨g, d, .mk b e' u v⟩ :: c) n) (hp : κ p = .RED)
    (hb : κ b = .RED) :
    let κ' := update (update (update κ p .BLACK) b .BLACK) g .RED
    Bal κ' (.mk g d (.mk p e t A) (.mk b e' u v)) (n + 1) ∧ Fit κ' c (n + 1) := by
  intro κ'
  obtain ⟨hA, -, hU, hrest⟩ := hc.grandparent hp
  obtain ⟨-, -, hu, hv⟩ := (bal_mk_red hb).mp hU
  rw [Ctx.apart_cons, Ctx.apart_cons, Ctx.apart_def] at hn
  simp only [PtrTree.nodup_mk, PtrTree.mem_addrs_mk] at hn
  have hk : ∀ z, z ≠ p → z ≠ b → z ≠ g → κ' z = κ z := by
    intro z h1 h2 h3
    simp [κ', update, h1, h2, h3]
  have hg : κ' g = .RED := by simp [κ']
  have hp' : κ' p = .BLACK := by grind
  have hb' : κ' b = .BLACK := by grind
  rw [bal_mk_red hg, dark_mk, bal_mk_black hp', dark_mk, bal_mk_black hb']
  refine ⟨⟨hp', hb', ⟨ht.congr ?_, hA.congr ?_⟩, hu.congr ?_, hv.congr ?_⟩, hrest.congr ?_⟩
  all_goals
    intro z hz
    apply hk <;> grind

/-- Case 3: the parent `p` of an outer child is rotated above `g`. -/
theorem insert_outer (hn : Ctx.Apart t (⟨p, d, A⟩ :: ⟨g, d, U⟩ :: c)) (ht : Bal κ t n)
    (hc : Fit κ (⟨p, d, A⟩ :: ⟨g, d, U⟩ :: c) n) (hp : κ p = .RED) (hU : Dark κ U) :
    let κ' := update (update κ p .BLACK) g .RED
    Sound κ' (Ctx.plug (.mk p d t (.mk g d A U)) c) := by
  intro κ'
  obtain ⟨hA, hAd, hUn, hrest⟩ := hc.grandparent hp
  rw [Ctx.apart_cons, Ctx.apart_cons, Ctx.apart_def] at hn
  simp only [PtrTree.nodup_mk, PtrTree.mem_addrs_mk] at hn
  have hk : ∀ z, z ≠ p → z ≠ g → κ' z = κ z := by
    intro z h1 h2
    simp [κ', update, h1, h2]
  have hg : κ' g = .RED := by simp [κ']
  have hp' : κ' p = .BLACK := by grind
  have hA' : ∀ z ∈ A.addrs, κ' z = κ z := fun z hz => by apply hk <;> grind
  have hU' : ∀ z ∈ U.addrs, κ' z = κ z := fun z hz => by apply hk <;> grind
  have htop : Bal κ' (.mk p d t (.mk g d A U)) (n + 1) := by
    rw [bal_mk_black hp', bal_mk_red hg]
    refine ⟨ht.congr fun z hz => ?_, hAd.congr hA', hU.congr hU', hA.congr hA', hUn.congr hU'⟩
    apply hk <;> grind
  refine Fit.sound (hrest.congr fun z hz => ?_) htop (.inl (dark_mk.mpr hp'))
  apply hk <;> grind

end Insertion

/-! ## Deletion

`t` is one black short; `p` is its parent and `w` its sibling, with the subtree `N` on the side of
`t` (near) and `F` on the other (far). -/

/-- The sibling of a place that is one black short is a node. -/
theorem Fit.sibling {f : Frame Addr} (h : Fit κ (f :: c) (n + 1)) :
    ∃ w N F, f.sib = .mk w f.side N F := by
  obtain ⟨hs, -⟩ := h
  cases hp : f.sib.ptr with
  | none =>
    rw [PtrTree.eq_nil_of_ptr hp] at hs
    cases hs
  | some w =>
    obtain ⟨N, F, he⟩ := PtrTree.eq_mk_of_ptr f.side hp
    exact ⟨w, N, F, he⟩

section Deletion

open Function (update)

variable {p w x y : Addr} {e : Side} {A B N F : PtrTree Addr} [DecidableEq Addr]

/-- A red node that is one black short is made black. -/
theorem delete_red (hn : Ctx.Apart t c) (ht : Short κ t n) (hc : Fit κ c (n + 1))
    (hx : t.ptr = some x) (hr : κ x = .RED) : Sound (update κ x .BLACK) (Ctx.plug t c) := by
  obtain ⟨l, r, rfl⟩ := PtrTree.eq_mk_of_ptr .left hx
  have hx' : update κ x .BLACK x = .BLACK := by simp
  have hk : ∀ z, z ≠ x → update κ x .BLACK z = κ z := fun z h1 => by simp [update, h1]
  rw [Ctx.apart_def] at hn
  simp only [PtrTree.nodup_mk, PtrTree.mem_addrs_mk] at hn
  obtain ⟨hd, -⟩ | ⟨a, l', r', he, -, hl, hr'⟩ := ht
  · rw [dark_mk, hr] at hd
    cases hd
  · cases he
    refine Fit.sound (hc.congr fun z hz => ?_) ((bal_mk_black hx').mpr ⟨hl.congr fun z hz => ?_,
      hr'.congr fun z hz => ?_⟩) (.inl (dark_mk.mpr hx'))
    all_goals
      apply hk
      grind

/-- Case 1: a red sibling is rotated above the parent. -/
theorem delete_red_sibling (hn : Ctx.Apart t (⟨p, d, .mk w d N F⟩ :: c)) (ht : Short κ t n)
    (hc : Fit κ (⟨p, d, .mk w d N F⟩ :: c) (n + 1)) (hw : κ w = .RED) :
    let κ' := update (update κ w .BLACK) p .RED
    Short κ' t n ∧ Fit κ' (⟨p, d, N⟩ :: ⟨w, d, F⟩ :: c) (n + 1) := by
  intro κ'
  obtain ⟨hs, hrest⟩ := hc
  obtain ⟨hN, hF, hNn, hFn⟩ := (bal_mk_red hw).mp hs
  rw [Ctx.apart_cons, Ctx.apart_def] at hn
  simp only [PtrTree.nodup_mk, PtrTree.mem_addrs_mk] at hn
  have hk : ∀ z, z ≠ w → z ≠ p → κ' z = κ z := by
    intro z h1 h2
    simp [κ', update, h1, h2]
  have hp : κ' p = .RED := by simp [κ']
  have hw' : κ' w = .BLACK := by grind
  have hN' : ∀ z ∈ N.addrs, κ' z = κ z := fun z hz => by apply hk <;> grind
  have hF' : ∀ z ∈ F.addrs, κ' z = κ z := fun z hz => by apply hk <;> grind
  have hw2 : Fit κ' (⟨w, d, F⟩ :: c) (n + 1) := by
    refine ⟨hFn.congr hF', ?_⟩
    rcases hrest with rfl | ⟨-, hrest⟩ | ⟨-, hd, -⟩
    · exact .inl rfl
    · refine .inr (.inl ⟨hw', hrest.congr fun z hz => ?_⟩)
      apply hk <;> grind
    · rw [dark_mk, hw] at hd
      cases hd
  refine ⟨ht.congr fun z hz => ?_, hNn.congr hN', .inr (.inr ⟨hp, hN.congr hN', .inr hw', hw2⟩)⟩
  apply hk <;> grind

/-- Case 2: the sibling is made red, and its parent is one black short. -/
theorem delete_recolor (hn : Ctx.Apart t (⟨p, d, .mk w d N F⟩ :: c)) (ht : Bal κ t n)
    (hc : Fit κ (⟨p, d, .mk w d N F⟩ :: c) (n + 1)) (hw : κ w = .BLACK)
    (hN : Dark κ N) (hF : Dark κ F) :
    let κ' := update κ w .RED
    ∃ m, Short κ' (.mk p d t (.mk w d N F)) m ∧ Fit κ' c (m + 1) := by
  intro κ'
  obtain ⟨hs, hrest⟩ := hc
  obtain ⟨hNn, hFn⟩ := (bal_mk_black hw).mp hs
  rw [Ctx.apart_cons, Ctx.apart_def] at hn
  simp only [PtrTree.nodup_mk, PtrTree.mem_addrs_mk] at hn
  have hk : ∀ z, z ≠ w → κ' z = κ z := fun z h1 => by simp [κ', h1]
  have hw' : κ' w = .RED := by simp [κ']
  have hN' : ∀ z ∈ N.addrs, κ' z = κ z := fun z hz => by apply hk; grind
  have hF' : ∀ z ∈ F.addrs, κ' z = κ z := fun z hz => by apply hk; grind
  have hp : κ' p = κ p := by apply hk; grind
  have ht' : Bal κ' t n := ht.congr fun z hz => by apply hk; grind
  have hS : Bal κ' (.mk w d N F) n :=
    (bal_mk_red hw').mpr ⟨hN.congr hN', hF.congr hF', hNn.congr hN', hFn.congr hF'⟩
  have hc' : ∀ z ∈ c.addrs, κ' z = κ z := fun z hz => by apply hk; grind
  cases hpc : κ p with
  | BLACK =>
    refine ⟨n + 1, .inl ⟨dark_mk.mpr (hp.trans hpc),
      (bal_mk_black (hp.trans hpc)).mpr ⟨ht', hS⟩⟩, ?_⟩
    rcases hrest with rfl | ⟨-, hrest⟩ | ⟨hrest, -⟩
    · trivial
    · exact hrest.congr hc'
    · rw [hpc] at hrest
      cases hrest
  | RED =>
    refine ⟨n, .inr ?_, ?_⟩
    · cases d
      · exact ⟨p, _, _, rfl, hp.trans hpc, ht', hS⟩
      · exact ⟨p, _, _, rfl, hp.trans hpc, hS, ht'⟩
    · rcases hrest with rfl | ⟨hrest, -⟩ | ⟨-, -, -, hrest⟩
      · trivial
      · rw [hpc] at hrest
        cases hrest
      · exact hrest.congr hc'

/-- Case 3: the red near child `y` of the sibling is rotated above it. -/
theorem delete_inner (hn : Ctx.Apart t (⟨p, d, .mk w d (.mk y d A B) F⟩ :: c)) (ht : Bal κ t n)
    (hd : Dark κ t) (hc : Fit κ (⟨p, d, .mk w d (.mk y d A B) F⟩ :: c) (n + 1))
    (hw : κ w = .BLACK) (hy : κ y = .RED) (hF : Dark κ F) :
    let κ' := update (update κ y .BLACK) w .RED
    Bal κ' t n ∧ Dark κ' t ∧ Fit κ' (⟨p, d, .mk y d A (.mk w d B F)⟩ :: c) (n + 1) := by
  intro κ'
  obtain ⟨hs, hrest⟩ := hc
  obtain ⟨hNn, hFn⟩ := (bal_mk_black hw).mp hs
  obtain ⟨hA, hB, hAn, hBn⟩ := (bal_mk_red hy).mp hNn
  rw [Ctx.apart_cons, Ctx.apart_def] at hn
  simp only [PtrTree.nodup_mk, PtrTree.mem_addrs_mk] at hn
  have hk : ∀ z, z ≠ y → z ≠ w → κ' z = κ z := by
    intro z h1 h2
    simp [κ', update, h1, h2]
  have hw' : κ' w = .RED := by simp [κ']
  have hy' : κ' y = .BLACK := by grind
  have hp : κ' p = κ p := by apply hk <;> grind
  have ht' : ∀ z ∈ t.addrs, κ' z = κ z := fun z hz => by apply hk <;> grind
  have hA' : ∀ z ∈ A.addrs, κ' z = κ z := fun z hz => by apply hk <;> grind
  have hB' : ∀ z ∈ B.addrs, κ' z = κ z := fun z hz => by apply hk <;> grind
  have hF' : ∀ z ∈ F.addrs, κ' z = κ z := fun z hz => by apply hk <;> grind
  have hc' : ∀ z ∈ c.addrs, κ' z = κ z := fun z hz => by apply hk <;> grind
  refine ⟨ht.congr ht', hd.congr ht', ?_, ?_⟩
  · show Bal κ' (.mk y d A (.mk w d B F)) (n + 1)
    rw [bal_mk_black hy', bal_mk_red hw']
    exact ⟨hAn.congr hA', hB.congr hB', hF.congr hF', hBn.congr hB', hFn.congr hF'⟩
  · rcases hrest with rfl | ⟨hpc, hrest⟩ | ⟨hpc, -, hpd, hrest⟩
    · exact .inl rfl
    · exact .inr (.inl ⟨hp.trans hpc, hrest.congr hc'⟩)
    · exact .inr (.inr ⟨hp.trans hpc, dark_mk.mpr hy', hpd.congr hc', hrest.congr hc'⟩)

/-- Case 4: the sibling, whose far child `y` is red, is rotated above the parent. -/
theorem delete_outer (hn : Ctx.Apart t (⟨p, d, .mk w d N (.mk y e A B)⟩ :: c)) (ht : Bal κ t n)
    (hc : Fit κ (⟨p, d, .mk w d N (.mk y e A B)⟩ :: c) (n + 1))
    (hw : κ w = .BLACK) (hy : κ y = .RED) :
    let κ' := update (update (update κ w (κ p)) p .BLACK) y .BLACK
    Sound κ' (Ctx.plug (.mk w d (.mk p d t N) (.mk y e A B)) c) := by
  intro κ'
  obtain ⟨hs, hrest⟩ := hc
  obtain ⟨hNn, hFn⟩ := (bal_mk_black hw).mp hs
  obtain ⟨-, -, hAn, hBn⟩ := (bal_mk_red hy).mp hFn
  rw [Ctx.apart_cons, Ctx.apart_def] at hn
  simp only [PtrTree.nodup_mk, PtrTree.mem_addrs_mk] at hn
  have hk : ∀ z, z ≠ w → z ≠ p → z ≠ y → κ' z = κ z := by
    intro z h1 h2 h3
    simp [κ', update, h1, h2, h3]
  have hy' : κ' y = .BLACK := by simp [κ']
  have hp : κ' p = .BLACK := by grind
  have hw' : κ' w = κ p := by grind
  have hc' : ∀ z ∈ c.addrs, κ' z = κ z := fun z hz => by apply hk <;> grind
  have hl : Bal κ' (.mk p d t N) (n + 1) := by
    rw [bal_mk_black hp]
    refine ⟨ht.congr fun z hz => ?_, hNn.congr fun z hz => ?_⟩
    all_goals apply hk <;> grind
  have hr : Bal κ' (.mk y e A B) (n + 1) := by
    rw [bal_mk_black hy']
    refine ⟨hAn.congr fun z hz => ?_, hBn.congr fun z hz => ?_⟩
    all_goals apply hk <;> grind
  rcases hrest with rfl | ⟨hpc, hrest⟩ | ⟨hpc, -, hpd, hrest⟩
  · exact sound_mk.mpr ⟨n + 1, hl, hr⟩
  · have hwb : κ' w = .BLACK := hw'.trans hpc
    exact Fit.sound (hrest.congr hc') ((bal_mk_black hwb).mpr ⟨hl, hr⟩) (.inl (dark_mk.mpr hwb))
  · exact Fit.sound (hrest.congr hc') ((bal_mk_red (hw'.trans hpc)).mpr
      ⟨dark_mk.mpr hp, dark_mk.mpr hy', hl, hr⟩) (.inr (hpd.congr hc'))

end Deletion

/-! ## Red-black trees -/

/-- For each null slot, the number of black nodes on the path to it. -/
def blacks (κ : Addr → Color) : PtrTree Addr → List Nat
  | .nil => [0]
  | .node a l r =>
    (blacks κ l ++ blacks κ r).map fun b => b + if κ a = .BLACK then 1 else 0

/-- No red node has a red child. -/
def NoRedRed (κ : Addr → Color) : PtrTree Addr → Prop
  | .nil => True
  | .node a l r => (κ a = .RED → Dark κ l ∧ Dark κ r) ∧ NoRedRed κ l ∧ NoRedRed κ r

/-- The red-black rules. -/
structure IsRedBlack (κ : Addr → Color) (t : PtrTree Addr) : Prop where
  root_black : Dark κ t
  no_red_red : NoRedRed κ t
  same_blacks : ∃ n, ∀ b ∈ blacks κ t, b = n

theorem Bal.blacks (h : Bal κ t n) : ∀ b ∈ blacks κ t, b = n := by
  induction t generalizing n with
  | nil => simpa [RedBlack.blacks] using h.symm
  | node a l r ihl ihr =>
    intro b hb
    obtain ⟨b', hb', rfl⟩ := List.mem_map.mp hb
    rcases h with ⟨ha, m, rfl, hl, hr⟩ | ⟨ha, -, -, hl, hr⟩
    · rcases List.mem_append.mp hb' with hb' | hb'
      · simp [ihl hl b' hb', ha]
      · simp [ihr hr b' hb', ha]
    · rcases List.mem_append.mp hb' with hb' | hb'
      · simp [ihl hl b' hb', ha]
      · simp [ihr hr b' hb', ha]

theorem Bal.noRedRed (h : Bal κ t n) : NoRedRed κ t := by
  induction t generalizing n with
  | nil => trivial
  | node a l r ihl ihr =>
    rcases h with ⟨ha, m, rfl, hl, hr⟩ | ⟨ha, h1, h2, hl, hr⟩
    · refine ⟨fun hred => ?_, ihl hl, ihr hr⟩
      rw [ha] at hred
      cases hred
    · exact ⟨fun _ => ⟨h1, h2⟩, ihl hl, ihr hr⟩

/-- A sound tree with a black root is balanced. -/
theorem Sound.bal (h : Sound κ t) (hd : Dark κ t) : ∃ n, Bal κ t n := by
  cases t with
  | nil => exact ⟨0, rfl⟩
  | node a l r =>
    obtain ⟨m, hl, hr⟩ := h
    exact ⟨m + 1, .inl ⟨hd a rfl, m, rfl, hl, hr⟩⟩

theorem Sound.isRedBlack (h : Sound κ t) (hd : Dark κ t) : IsRedBlack κ t := by
  obtain ⟨n, hn⟩ := h.bal hd
  exact ⟨hd, hn.noRedRed, n, hn.blacks⟩

/-! ## Depth -/

theorem Bal.two_pow_le (h : Bal κ t n) : 2 ^ n ≤ t.addrs.length + 1 := by
  induction t generalizing n with
  | nil => simp [bal_nil.mp h]
  | node a l r ihl ihr =>
    simp only [PtrTree.addrs, List.length_append, List.length_cons]
    rcases h with ⟨-, m, rfl, hl, hr⟩ | ⟨-, -, -, hl, hr⟩
    · have := ihl hl
      have := ihr hr
      omega
    · have := ihl hl
      omega

theorem Bal.depth_le (h : Bal κ t n) : t.depth ≤ 2 * n + 1 ∧ (Dark κ t → t.depth ≤ 2 * n) := by
  induction t generalizing n with
  | nil => simp [PtrTree.depth]
  | node a l r ihl ihr =>
    simp only [PtrTree.depth]
    rcases h with ⟨-, m, rfl, hl, hr⟩ | ⟨ha, h1, h2, hl, hr⟩
    · have := (ihl hl).1
      have := (ihr hr).1
      omega
    · have := (ihl hl).2 h1
      have := (ihr hr).2 h2
      refine ⟨by omega, fun hd => ?_⟩
      have hb := hd a rfl
      rw [ha] at hb
      cases hb

/-- The depth of a sound tree is at most twice the binary logarithm of its size plus one. -/
theorem Sound.two_pow_depth_le (h : Sound κ t) : 2 ^ t.depth ≤ (t.addrs.length + 1) ^ 2 := by
  cases t with
  | nil => simp [PtrTree.depth, PtrTree.addrs]
  | node a l r =>
    obtain ⟨m, hl, hr⟩ := h
    have h1 := hl.depth_le.1
    have h2 := hr.depth_le.1
    have h3 := hl.two_pow_le
    have h4 := hr.two_pow_le
    calc 2 ^ (PtrTree.node a l r).depth
        ≤ 2 ^ (2 * (m + 1)) := Nat.pow_le_pow_right (by omega) (by simp only [PtrTree.depth]; omega)
      _ = (2 ^ (m + 1)) ^ 2 := by rw [Nat.mul_comm, Nat.pow_mul]
      _ ≤ _ := by
        apply Nat.pow_le_pow_left
        simp only [PtrTree.addrs, List.length_append, List.length_cons, Nat.pow_succ]
        omega

/-- The nodes above a hole are on one path of the tree. -/
theorem Ctx.length_le_depth (t : PtrTree Addr) (c : Ctx Addr) :
    c.length + t.depth ≤ (Ctx.plug t c).depth := by
  induction c generalizing t with
  | nil => simp [Ctx.plug]
  | cons f c ih =>
    have h1 := ih (.mk f.addr f.side t f.sib)
    rw [PtrTree.depth_mk] at h1
    simp only [Ctx.plug, List.length_cons]
    omega

end MpmcMap.RedBlack
