import MpmcMap.Conc.RelyGuarantee
import MpmcMap.Reclaim.Hazard

/-!
# The registry of hazard slots

`register_active` reserves an entry with `fetch_add` and writes it; `unregister_active` reads the
count, finds its entry, moves the last entry over it, clears the last entry and decreases the
count. Two unregistrations that overlap can lose an entry of a live thread, and so can a
registration during an unregistration (`lost_entry`). `registry_complete` shows that this is the
only way: as long as the removals do not overlap other changes of the prefix, and no more than
`MAX_THREADS` threads register, are registered or leave, every owned slot is listed exactly once.

The proof keeps a ghost line of threads, one for each entry of the prefix. The entries are those of
the line except where a removal is half done.
-/

namespace MpmcMap.Reclaim.Hazard

open Conc
open Function (update)

/-! ## The reclaimer under any number of clients -/

/-- The operations of the reclaimer. -/
inductive Call where
  | protect (idx : Nat) (p : Option Ptr)
  | clear (idx : Nat)
  | retire (p : Ptr) (a : RetireAction)
  | reclaim
  | isProtected (p : Ptr)
  | drainAll
  /-- The thread exits: `finalize_thread()`. -/
  | exit
  deriving DecidableEq, Repr

def code : Call → Code Bool
  | .protect idx p => do protect idx p; return true
  | .clear idx => do clear idx; return true
  | .retire p a => retire p a
  | .reclaim => do scan; return true
  | .isProtected p => isProtected p
  | .drainAll => do drainAll; return true
  | .exit => do finalizeThread; return true

def invoke (t : Nat) (c : Call) (s : State) : Option State :=
  match c with
  | .isProtected p => some { s with
      scanners := insert t s.scanners, scanned := update s.scanned t p }
  | _ => some s

def respond (t : Nat) (c : Call) (_ : Bool) (s : State) : State :=
  match c with
  | .isProtected _ => { s with scanners := s.scanners.erase t }
  | _ => s

/-- The reclaimer under any number of clients; a number of a thread that has exited stands for a
new thread when it is used again. -/
def registry : SharedObject Op State Call Bool where
  action := action
  code := code
  invoke := invoke
  respond := respond

/-- The count is the number of owned slots, and each of them is listed exactly once. -/
def Complete (s : State) : Prop :=
  s.count = ((Finset.range MAX_THREADS).filter fun i => s.owner i ≠ 0).card ∧
  ∀ i, s.owner i ≠ 0 → i < MAX_THREADS ∧ ∃! k, k < s.count ∧ s.entries k = some i

/-- No thread is between acquiring or releasing a slot and the end of its (un)registration. -/
def Settled (s : State) : Prop := ∀ u ∈ s.members, s.phase u = .registered

instance (s : State) : Decidable (Settled s) :=
  inferInstanceAs (Decidable (∀ u ∈ s.members, s.phase u = .registered))

/-! ## The ghost line -/

/-- The thread owns its slot. -/
def Phase.owns : Phase → Bool
  | .acquired | .reserved | .registered => true
  | _ => false

/-- An entry is reserved for the thread's slot. -/
def Phase.listed : Phase → Bool
  | .reserved | .registered | .released | .moving => true
  | _ => false

/-- The threads for which an entry is reserved. -/
def State.listing (s : State) : Finset Nat := s.members.filter fun u => (s.phase u).listed

/-- How far the removal in progress has changed the entries. -/
inductive Stage where
  | settled
  /-- The last entry has been copied to the position. -/
  | copied (k : Nat)
  /-- And then cleared. -/
  | cleared (k : Nat)

/-- The state, the slot of each thread, the thread of each entry, and the stage of the removal. -/
structure Aug where
  st : State
  slotOf : Nat → Nat
  line : Nat → Nat
  stage : Stage

/-- What the entries are when no removal is half done. -/
def Aug.base (a : Aug) (j : Nat) : Option Nat :=
  if j < a.st.count ∧ a.st.phase (a.line j) ≠ .reserved then some (a.slotOf (a.line j)) else none

/-- What the entries are. -/
def Aug.shown (a : Aug) : Nat → Option Nat :=
  match a.stage with
  | .settled => a.base
  | .copied k => update a.base k (a.base (a.st.count - 1))
  | .cleared k => update (update a.base k (a.base (a.st.count - 1))) (a.st.count - 1) none

/-- The removal in progress: position `k` is that of a thread that removes its entry, and the last
entry has been written. -/
def Aug.Removing (a : Aug) (k : Nat) : Prop :=
  k < a.st.count ∧ a.st.phase (a.line k) = .moving ∧
    a.st.phase (a.line (a.st.count - 1)) ≠ .reserved

structure Inv (a : Aug) : Prop where
  members : ∀ u, u ∈ a.st.members ↔ a.st.phase u ≠ .away
  owner : ∀ i, a.st.owner i ≠ 0 ↔ ∃ u, (a.st.phase u).owns ∧ a.slotOf u = i
  slot_inj : ∀ u v, (a.st.phase u).owns → (a.st.phase v).owns → a.slotOf u = a.slotOf v → u = v
  slot_lt : ∀ u, (a.st.phase u).owns → a.slotOf u < MAX_THREADS
  tls_slot : ∀ u, (a.st.phase u).listed → (a.st.tls u).slot = some (a.slotOf u)
  line_inj : ∀ j k, j < a.st.count → k < a.st.count → a.line j = a.line k → j = k
  listed : ∀ u, (a.st.phase u).listed ↔ ∃ j < a.st.count, a.line j = u
  reserved : ∀ u, a.st.phase u = .reserved →
    a.st.reservedAt u < a.st.count ∧ a.line (a.st.reservedAt u) = u
  count_le : a.st.count ≤ MAX_THREADS
  one_moving : ∀ u v, a.st.phase u = .moving → a.st.phase v = .moving → u = v
  limit : ∀ u, a.st.phase u = .moving → a.st.limit u = a.st.count
  entries : a.st.entries = a.shown
  copied : ∀ k, a.stage = .copied k → a.Removing k
  cleared : ∀ k, a.stage = .cleared k → a.Removing k
  touched : ∀ k ∈ a.st.touched, k < MAX_THREADS

/-- The walk of thread `t` has not missed slot `i`: no entry before its cursor names the slot,
except one that was copied there after the cursor had passed and whose original is still ahead. -/
def Aug.Sees (a : Aug) (t i : Nat) : Prop :=
  (∀ j, a.st.entries j = some i → j < a.st.limit t) ∧
  ∀ j < a.st.cursor t, a.st.entries j = some i →
    a.stage = .copied j ∧ t ∈ a.st.passed (a.line j) ∧ a.st.cursor t ≤ a.st.count - 1

/-- What a step of thread `u` may change; `strict` adds that no walk of another thread misses a
slot. -/
structure Guar (strict : Prop) (u : Nat) (a b : Aug) : Prop where
  phase : ∀ v, v ≠ u → b.st.phase v = a.st.phase v
  slot : ∀ v, v ≠ u → (b.st.tls v).slot = (a.st.tls v).slot
  slotOf : ∀ v, v ≠ u ∨ (a.st.phase v).listed → b.slotOf v = a.slotOf v
  reservedAt : ∀ v, v ≠ u → b.st.reservedAt v = a.st.reservedAt v
  cursor : ∀ v, v ≠ u → b.st.cursor v = a.st.cursor v
  limit : ∀ v, v ≠ u → b.st.limit v = a.st.limit v
  scanned : ∀ v, v ≠ u → b.st.scanned v = a.st.scanned v
  scanners : ∀ v, v ≠ u → (v ∈ b.st.scanners ↔ v ∈ a.st.scanners)
  removing : ∀ v, v ≠ u → a.st.phase v = .moving →
    b.line = a.line ∧ b.st.count = a.st.count ∧ b.stage = a.stage ∧
      (a.st.phase u ≠ .reserved → b.st.phase u ≠ .reserved)
  sees : strict → ∀ v, v ≠ u → v ∈ a.st.scanners → ∀ x h, a.st.phase x = .registered →
    h < HAZARD_POINTERS → a.st.hp (a.slotOf x) h = some (a.st.scanned v) →
    a.Sees v (a.slotOf x) → b.Sees v (a.slotOf x)

/-- No reservation and no second removal between a removal's read of the count and its decrement;
no removal reads the last entry before it is written; at most `MAX_THREADS` threads register, are
registered or leave at a time; the owner ids have not wrapped to the mark of a free slot. -/
def Orderly {β : Type} (t : Nat) (o : Op β) (s : State) : Prop :=
  match o with
  | .casOwner i self => s.owner i = 0 → self ≠ 0
  | .addCount => s.listing.card < MAX_THREADS ∧ ∀ u ∈ s.members, s.phase u ≠ .moving
  | .loadCount => s.phase t = .released → ∀ u ∈ s.members, s.phase u ≠ .moving
  | .loadEntry k => s.phase t = .moving → k + 1 = s.limit t →
      ∀ u ∈ s.members, s.phase u = .reserved → s.reservedAt u ≠ k
  | _ => True

/-- When a removal clears the last entry, no walk that had passed the place to which the entry was
copied, and that has not yet come to the last entry, looks for a pointer that the slot publishes. -/
def Unmissed {β : Type} (t : Nat) (o : Op β) (s : State) : Prop :=
  match o with
  | .storeEntry k none => s.phase t = .moving → ∀ u ∈ s.passed t, s.cursor u ≤ k → k < s.limit u →
      ∀ i, s.entries k = some i → ∀ h < HAZARD_POINTERS, s.hp i h ≠ some (s.scanned u)
  | _ => True

/-- The proof obligations of the threads. -/
def orderly (strict : Prop) : Discipline registry Aug where
  erase := Aug.st
  inv := Inv
  guar := Guar strict
  ok t o s := Orderly t o s ∧ (strict → Unmissed t o s)

theorem Guar.refl (strict : Prop) (u : Nat) (a : Aug) : Guar strict u a a where
  phase _ _ := rfl
  slot _ _ := rfl
  slotOf _ _ := rfl
  reservedAt _ _ := rfl
  cursor _ _ := rfl
  limit _ _ := rfl
  scanned _ _ := rfl
  scanners _ _ := Iff.rfl
  removing _ _ _ := ⟨rfl, rfl, rfl, id⟩
  sees _ _ _ _ _ _ _ _ _ h := h

/-! ## What the invariant says about the entries -/

section Entries

variable {a b : Aug} {t u i j k : Nat} {strict : Prop}

/-- Whose slot is at a position. -/
theorem Aug.base_eq_some (a : Aug) (j i : Nat) : a.base j = some i ↔
    j < a.st.count ∧ a.st.phase (a.line j) ≠ .reserved ∧ a.slotOf (a.line j) = i := by
  unfold Aug.base
  split
  · next h => simp [h]
  · next h =>
    simp only [reduceCtorEq, false_iff]
    tauto

/-- Where nothing moves, the entries are those of the line. -/
theorem Aug.shown_settled (h : a.stage = .settled) : a.shown = a.base := by
  simp only [Aug.shown, h]

theorem Aug.shown_copied (h : a.stage = .copied k) :
    a.shown = update a.base k (a.base (a.st.count - 1)) := by
  simp only [Aug.shown, h]

theorem Aug.shown_cleared (h : a.stage = .cleared k) : a.shown =
    update (update a.base k (a.base (a.st.count - 1))) (a.st.count - 1) none := by
  simp only [Aug.shown, h]

/-- Nothing is listed beyond the count. -/
theorem Inv.lt_count (hi : Inv a) (h : a.st.entries j = some i) : j < a.st.count := by
  rw [hi.entries] at h
  cases hs : a.stage with
  | settled =>
    rw [Aug.shown_settled hs] at h
    exact ((a.base_eq_some j i).mp h).1
  | copied k =>
    rw [Aug.shown_copied hs, Function.update_apply] at h
    split at h
    · next hjk => exact hjk ▸ (hi.copied k hs).1
    · exact ((a.base_eq_some j i).mp h).1
  | cleared k =>
    rw [Aug.shown_cleared hs, Function.update_apply, Function.update_apply] at h
    split at h
    · cases h
    · split at h
      · next hjk => exact hjk ▸ (hi.cleared k hs).1
      · exact ((a.base_eq_some j i).mp h).1

/-- Until it is cleared, the original of a copied entry still names the slot. -/
theorem Inv.copied_last (hi : Inv a) (hs : a.stage = .copied k) (h : a.st.entries k = some i) :
    a.st.entries (a.st.count - 1) = some i := by
  rw [hi.entries, Aug.shown_copied hs] at h ⊢
  rw [Function.update_self] at h
  by_cases hk : a.st.count - 1 = k
  · rw [hk, Function.update_self, ← hk, h]
  · rw [Function.update_of_ne hk, h]

/-- The slot of a registered thread is listed. -/
theorem Inv.exists_entry (hi : Inv a) (hu : a.st.phase u = .registered) :
    ∃ j, a.st.entries j = some (a.slotOf u) := by
  obtain ⟨j, hj, rfl⟩ := (hi.listed u).mp (by simp [hu, Phase.listed])
  have hbase : a.base j = some (a.slotOf (a.line j)) := by
    rw [Aug.base_eq_some]
    exact ⟨hj, by simp [hu], rfl⟩
  rw [hi.entries]
  cases hs : a.stage with
  | settled => exact ⟨j, by rw [Aug.shown_settled hs, hbase]⟩
  | copied k =>
    have hne : j ≠ k := by
      rintro rfl
      simp [(hi.copied j hs).2.1] at hu
    exact ⟨j, by rw [Aug.shown_copied hs, Function.update_of_ne hne, hbase]⟩
  | cleared k =>
    have hne : j ≠ k := by
      rintro rfl
      simp [(hi.cleared j hs).2.1] at hu
    rw [Aug.shown_cleared hs]
    by_cases hlast : j = a.st.count - 1
    · -- the last entry has been cleared, but its copy remains
      subst hlast
      exact ⟨k, by rw [Function.update_of_ne (Ne.symm hne), Function.update_self, hbase]⟩
    · exact ⟨j, by rw [Function.update_of_ne hlast, Function.update_of_ne hne, hbase]⟩

/-- The count is the number of the threads for which an entry is reserved. -/
theorem Inv.card_listing (hi : Inv a) : a.st.listing.card = a.st.count := by
  have himage : a.st.listing = (Finset.range a.st.count).image a.line := by
    ext u
    simp only [State.listing, Finset.mem_filter, Finset.mem_image, Finset.mem_range, hi.listed]
    refine ⟨fun h => h.2, fun h => ⟨(hi.members u).mpr fun haway => ?_, h⟩⟩
    have hlisted := (hi.listed u).mpr h
    simp [haway, Phase.listed] at hlisted
  rw [himage, Finset.card_image_of_injOn, Finset.card_range]
  intro j hj k hk he
  exact hi.line_inj j k (by simpa using hj) (by simpa using hk) he

/-- While a thread removes its entry, what is written in the entries of the line stays. -/
theorem Guar.base (hg : Guar strict u a b) (hut : u ≠ t) (ht : a.st.phase t = .moving)
    (hi : Inv a) (h : a.base j = some i) : b.base j = some i := by
  obtain ⟨hline, hcount, -, hres⟩ := hg.removing t hut.symm ht
  rw [Aug.base_eq_some] at h ⊢
  obtain ⟨hj, hph, rfl⟩ := h
  have hl : (a.st.phase (a.line j)).listed := (hi.listed _).mpr ⟨j, hj, rfl⟩
  refine ⟨hcount ▸ hj, ?_, by rw [hline, hg.slotOf _ (.inr hl)]⟩
  rw [hline]
  by_cases hju : a.line j = u
  · rw [hju] at hph ⊢
    exact hres hph
  · rwa [hg.phase _ hju]

/-- A walk misses no slot in a step that leaves the entries and the removal in progress alone. -/
theorem Aug.Sees.keep (h : a.Sees t i) (hi : Inv a) (hentries : b.st.entries = a.st.entries)
    (hstage : b.stage = a.stage) (hcount : a.st.count ≤ b.st.count)
    (hline : ∀ j < a.st.count, b.line j = a.line j)
    (hpassed : ∀ w, t ∈ a.st.passed w → t ∈ b.st.passed w)
    (hlimit : b.st.limit t = a.st.limit t) (hcursor : b.st.cursor t = a.st.cursor t) :
    b.Sees t i := by
  refine ⟨fun j hj => ?_, fun j hj he => ?_⟩
  · rw [hlimit]
    exact h.1 j (hentries ▸ hj)
  · rw [hcursor] at hj ⊢
    rw [hentries] at he
    obtain ⟨h1, h2, h3⟩ := h.2 j hj he
    rw [hstage, hline j (hi.lt_count he)]
    exact ⟨h1, hpassed _ h2, by omega⟩

end Entries

/-! ## Acquiring and registering -/

section Register

variable {a : Aug} {t i self : Nat} {strict : Prop}

/-- The compare-exchange of `slot` succeeds. -/
def Aug.acquire (a : Aug) (t i self : Nat) : Aug :=
  { a with
    st := { a.st with
      owner := update a.st.owner i self
      phase := update a.st.phase t .acquired
      members := insert t a.st.members }
    slotOf := update a.slotOf t i }

/-- A slot without an owner is nobody's. -/
theorem Inv.not_owns (hi : Inv a) {u : Nat} (h : a.st.owner i = 0)
    (hu : (a.st.phase u).owns) : a.slotOf u ≠ i := fun he =>
  (hi.owner i).mpr ⟨u, hu, he⟩ h

/-- A thread that is not listed is not in the line. -/
theorem Inv.line_ne (hi : Inv a) {u j : Nat} (hu : (a.st.phase u).listed = false)
    (hj : j < a.st.count) : a.line j ≠ u := fun he => by
  have := (hi.listed u).mpr ⟨j, hj, he⟩
  simp [hu] at this

theorem Aug.acquire_base (hi : Inv a) (ht : a.st.phase t = .away) :
    (a.acquire t i self).base = a.base := by
  funext j
  unfold Aug.base Aug.acquire
  by_cases hj : j < a.st.count
  · have hne : a.line j ≠ t := hi.line_ne (by simp [ht, Phase.listed]) hj
    simp [hj, Function.update_of_ne hne]
  · simp [hj]

/-- A free slot may be acquired. -/
theorem Inv.acquire (hi : Inv a) (ht : a.st.phase t = .away) (h0 : a.st.owner i = 0)
    (hself : self ≠ 0) (hlt : i < MAX_THREADS) : Inv (a.acquire t i self) where
  members u := by
    have := hi.members u
    simp only [Aug.acquire, Finset.mem_insert, Function.update_apply]
    grind
  owner j := by
    have := hi.owner j
    simp only [Aug.acquire, Function.update_apply]
    grind [Phase.owns]
  slot_inj u v := by
    have h1 := hi.slot_inj u v
    have h2 := fun w => hi.not_owns (u := w) h0
    simp only [Aug.acquire, Function.update_apply]
    grind
  slot_lt u := by
    have := hi.slot_lt u
    simp only [Aug.acquire, Function.update_apply]
    grind
  tls_slot u := by
    have := hi.tls_slot u
    simp only [Aug.acquire, Function.update_apply]
    grind [Phase.listed]
  line_inj := hi.line_inj
  listed u := by
    have h1 := hi.listed u
    have h2 := fun j => hi.line_ne (u := t) (j := j) (by simp [ht, Phase.listed])
    simp only [Aug.acquire, Function.update_apply]
    grind [Phase.listed]
  reserved u := by
    have := hi.reserved u
    simp only [Aug.acquire, Function.update_apply]
    grind
  count_le := hi.count_le
  one_moving u v := by
    have := hi.one_moving u v
    simp only [Aug.acquire, Function.update_apply]
    grind
  limit u := by
    have := hi.limit u
    simp only [Aug.acquire, Function.update_apply]
    grind
  entries := by
    show a.st.entries = _
    rw [hi.entries]
    unfold Aug.shown
    rw [Aug.acquire_base hi ht]
    rfl
  copied k := by
    have := hi.copied k
    have h2 := fun j => hi.line_ne (u := t) (j := j) (by simp [ht, Phase.listed])
    simp only [Aug.acquire, Aug.Removing, Function.update_apply] at this ⊢
    grind
  cleared k := by
    have := hi.cleared k
    have h2 := fun j => hi.line_ne (u := t) (j := j) (by simp [ht, Phase.listed])
    simp only [Aug.acquire, Aug.Removing, Function.update_apply] at this ⊢
    grind
  touched := hi.touched

theorem Guar.acquire (hi : Inv a) (ht : a.st.phase t = .away) :
    Guar strict t a (a.acquire t i self) where
  phase v hv := Function.update_of_ne hv _ _
  slot _ _ := rfl
  slotOf v hv := by
    refine Function.update_of_ne ?_ _ _
    rintro rfl
    simp [ht, Phase.listed] at hv
  reservedAt _ _ := rfl
  cursor _ _ := rfl
  limit _ _ := rfl
  scanned _ _ := rfl
  scanners _ _ := Iff.rfl
  removing _ _ _ := ⟨rfl, rfl, rfl, fun _ => by simp [Aug.acquire]⟩
  sees _ v _ _ x h hx _ _ hs := hs.keep hi rfl rfl le_rfl (fun _ _ => rfl) (fun _ => id) rfl rfl

/-- `fetch_add` on the count. -/
def Aug.reserve (a : Aug) (t : Nat) : Aug :=
  { a with
    st := { a.st with
      count := a.st.count + 1
      phase := update a.st.phase t .reserved
      reservedAt := update a.st.reservedAt t a.st.count }
    line := update a.line a.st.count t }

/-- Without a removal in progress the entries are settled. -/
theorem Inv.settled (hi : Inv a) (h : ∀ u ∈ a.st.members, a.st.phase u ≠ .moving) :
    a.stage = .settled := by
  have hno : ∀ k, ¬ a.Removing k := by
    rintro k ⟨-, hk, -⟩
    exact h _ ((hi.members _).mpr (by simp [hk])) hk
  cases hs : a.stage with
  | settled => rfl
  | copied k => exact absurd (hi.copied k hs) (hno k)
  | cleared k => exact absurd (hi.cleared k hs) (hno k)

theorem Aug.reserve_base (hi : Inv a) (ht : a.st.phase t = .acquired) :
    (a.reserve t).base = a.base := by
  funext j
  unfold Aug.base Aug.reserve
  rcases Nat.lt_trichotomy j a.st.count with hj | rfl | hj
  · have hne : a.line j ≠ t := hi.line_ne (by simp [ht, Phase.listed]) hj
    simp [hj, Nat.lt_succ_of_lt hj, Function.update_of_ne hj.ne, Function.update_of_ne hne]
  · simp
  · simp [Nat.not_lt.mpr hj.le, Nat.not_lt.mpr (Nat.succ_le_of_lt hj)]

/-- A position may be reserved while there is room and no entry is being moved. -/
theorem Inv.reserve (hi : Inv a) (ht : a.st.phase t = .acquired)
    (hslot : (a.st.tls t).slot = some (a.slotOf t)) (hlt : a.st.count < MAX_THREADS)
    (hmov : ∀ u ∈ a.st.members, a.st.phase u ≠ .moving) : Inv (a.reserve t) := by
  have hfree := fun j => hi.line_ne (u := t) (j := j) (by simp [ht, Phase.listed])
  have hnone : ∀ u, a.st.phase u ≠ .moving := fun u hu =>
    hmov u ((hi.members u).mpr (by simp [hu])) hu
  have hset : (a.reserve t).stage = .settled := hi.settled hmov
  exact {
    members := fun u => by
      have := hi.members u
      simp only [Aug.reserve, Function.update_apply]
      grind
    owner := fun j => by
      have := hi.owner j
      simp only [Aug.reserve, Function.update_apply]
      grind [Phase.owns]
    slot_inj := fun u v => by
      have h1 := hi.slot_inj u v
      simp only [Aug.reserve, Function.update_apply]
      grind [Phase.owns]
    slot_lt := fun u => by
      have := hi.slot_lt u
      simp only [Aug.reserve, Function.update_apply]
      grind [Phase.owns]
    tls_slot := fun u => by
      have := hi.tls_slot u
      simp only [Aug.reserve, Function.update_apply]
      grind
    line_inj := fun j k => by
      have := hi.line_inj j k
      simp only [Aug.reserve, Function.update_apply]
      grind
    listed := fun u => by
      have := hi.listed u
      simp only [Aug.reserve, Function.update_apply]
      by_cases hut : u = t
      · subst hut
        simp only [if_pos, Phase.listed, true_iff]
        -- the new last position
        exact ⟨a.st.count, by omega, by simp⟩
      · rw [if_neg hut, this]
        constructor
        · rintro ⟨j, hj, he⟩
          exact ⟨j, by omega, by simp [hj.ne, he]⟩
        · rintro ⟨j, hj, he⟩
          grind
    reserved := fun u => by
      have := hi.reserved u
      simp only [Aug.reserve, Function.update_apply]
      grind
    count_le := hlt
    one_moving := fun u v => by
      have := hi.one_moving u v
      simp only [Aug.reserve, Function.update_apply]
      grind
    limit := fun u => by
      have := hnone u
      simp only [Aug.reserve, Function.update_apply]
      grind
    entries := by
      show a.st.entries = _
      rw [hi.entries, Aug.shown_settled (hi.settled hmov), Aug.shown_settled hset,
        Aug.reserve_base hi ht]
    copied := fun k hk => by simp [hset] at hk
    cleared := fun k hk => by simp [hset] at hk
    touched := hi.touched }

theorem Guar.reserve (hi : Inv a)
    (hmov : ∀ u ∈ a.st.members, a.st.phase u ≠ .moving) : Guar strict t a (a.reserve t) where
  phase v hv := Function.update_of_ne hv _ _
  slot _ _ := rfl
  slotOf _ _ := rfl
  reservedAt v hv := Function.update_of_ne hv _ _
  cursor _ _ := rfl
  limit _ _ := rfl
  scanned _ _ := rfl
  scanners _ _ := Iff.rfl
  removing v _ hm := absurd hm (hmov v ((hi.members v).mpr (by simp [hm])))
  sees _ v _ _ x h hx _ _ hs := hs.keep hi rfl rfl (Nat.le_succ _)
    (fun j hj => Function.update_of_ne hj.ne _ _) (fun _ => id) rfl rfl

/-- The entry that was reserved is written. -/
def Aug.enlist (a : Aug) (t : Nat) : Aug :=
  { a with
    st := { a.st with
      entries := update a.st.entries (a.st.reservedAt t) (some (a.slotOf t))
      touched := a.st.touched ++ [a.st.reservedAt t]
      phase := update a.st.phase t .registered
      passed := update a.st.passed t
        (a.st.scanners.filter fun u => a.st.reservedAt t < a.st.cursor u) } }

/-- The reserved position shows the slot. -/
theorem Aug.enlist_base (hi : Inv a) (ht : a.st.phase t = .reserved) :
    (a.enlist t).base = update a.base (a.st.reservedAt t) (some (a.slotOf t)) := by
  obtain ⟨hlt, hline⟩ := hi.reserved t ht
  funext j
  by_cases hj : j = a.st.reservedAt t
  · subst hj
    simp [Aug.base, Aug.enlist, hlt, hline]
  · rw [Function.update_of_ne hj]
    unfold Aug.base
    by_cases hjc : j < a.st.count
    · have hne : a.line j ≠ t := fun he => hj (hi.line_inj j _ hjc hlt (he.trans hline.symm))
      simp [Aug.enlist, hjc, Function.update_of_ne hne]
    · simp [Aug.enlist, hjc]

/-- A removal in progress is about other entries than one that is reserved. -/
theorem Inv.reserved_ne (hi : Inv a) (ht : a.st.phase t = .reserved) {k : Nat}
    (hk : a.Removing k) : a.st.reservedAt t ≠ k ∧ a.st.reservedAt t ≠ a.st.count - 1 := by
  obtain ⟨-, hline⟩ := hi.reserved t ht
  obtain ⟨-, hmov, hlast⟩ := hk
  constructor
  · rintro rfl
    simp [hline, ht] at hmov
  · intro he
    rw [← he, hline] at hlast
    exact hlast ht

/-- What is stored is what the line says. -/
theorem Inv.enlist_entries (hi : Inv a) (ht : a.st.phase t = .reserved) :
    (a.enlist t).st.entries = (a.enlist t).shown := by
  show update a.st.entries _ _ = _
  have hstage : (a.enlist t).stage = a.stage := rfl
  have hcount : (a.enlist t).st.count = a.st.count := rfl
  rw [hi.entries]
  cases hs : a.stage with
  | settled =>
    rw [Aug.shown_settled hs, Aug.shown_settled (hstage.trans hs), Aug.enlist_base hi ht]
  | copied k =>
    obtain ⟨hk, hlast⟩ := hi.reserved_ne ht (hi.copied k hs)
    rw [Aug.shown_copied hs, Aug.shown_copied (hstage.trans hs), Aug.enlist_base hi ht, hcount,
      Function.update_of_ne hlast.symm, Function.update_comm hk.symm]
  | cleared k =>
    obtain ⟨hk, hlast⟩ := hi.reserved_ne ht (hi.cleared k hs)
    rw [Aug.shown_cleared hs, Aug.shown_cleared (hstage.trans hs), Aug.enlist_base hi ht, hcount,
      Function.update_of_ne hlast.symm, Function.update_comm hlast.symm, Function.update_comm hk.symm]

/-- The entry is stored at the position that was reserved. -/
theorem Inv.enlist (hi : Inv a) (ht : a.st.phase t = .reserved) : Inv (a.enlist t) where
  members u := by
    have := hi.members u
    simp only [Aug.enlist, Function.update_apply]
    grind
  owner j := by
    have := hi.owner j
    simp only [Aug.enlist, Function.update_apply]
    grind [Phase.owns]
  slot_inj u v := by
    have h1 := hi.slot_inj u v
    simp only [Aug.enlist, Function.update_apply]
    grind [Phase.owns]
  slot_lt u := by
    have := hi.slot_lt u
    simp only [Aug.enlist, Function.update_apply]
    grind [Phase.owns]
  tls_slot u := by
    have := hi.tls_slot u
    simp only [Aug.enlist, Function.update_apply]
    grind [Phase.listed]
  line_inj := hi.line_inj
  listed u := by
    have := hi.listed u
    simp only [Aug.enlist, Function.update_apply]
    grind [Phase.listed]
  reserved u := by
    have := hi.reserved u
    simp only [Aug.enlist, Function.update_apply]
    grind
  count_le := hi.count_le
  one_moving u v := by
    have := hi.one_moving u v
    simp only [Aug.enlist, Function.update_apply]
    grind
  limit u := by
    have := hi.limit u
    simp only [Aug.enlist, Function.update_apply]
    grind
  entries := hi.enlist_entries ht
  copied k := by
    have := hi.copied k
    simp only [Aug.enlist, Aug.Removing, Function.update_apply] at this ⊢
    grind
  cleared k := by
    have := hi.cleared k
    simp only [Aug.enlist, Aug.Removing, Function.update_apply] at this ⊢
    grind
  touched k hk := by
    have hlt := (hi.reserved t ht).1
    have hle := hi.count_le
    rcases List.mem_append.mp hk with hk | hk
    · exact hi.touched k hk
    · rw [List.mem_singleton.mp hk]
      omega

theorem Guar.enlist (hi : Inv a) (ht : a.st.phase t = .reserved) :
    Guar strict t a (a.enlist t) where
  phase v hv := Function.update_of_ne hv _ _
  slot _ _ := rfl
  slotOf _ _ := rfl
  reservedAt _ _ := rfl
  cursor _ _ := rfl
  limit _ _ := rfl
  scanned _ _ := rfl
  scanners _ _ := Iff.rfl
  removing _ _ _ := ⟨rfl, rfl, rfl, fun h => absurd ht h⟩
  sees _ v _ _ x h hx _ _ hs := by
    -- the slot that is written belongs to another thread
    have hne : a.slotOf t ≠ a.slotOf x := fun he => by
      have := hi.slot_inj t x (by simp [ht, Phase.owns]) (by simp [hx, Phase.owns]) he
      simp [← this, ht] at hx
    have hentry : ∀ j, (a.enlist t).st.entries j = some (a.slotOf x) →
        a.st.entries j = some (a.slotOf x) := by
      intro j hj
      simp only [Aug.enlist, Function.update_apply] at hj
      split at hj
      · simp [hne] at hj
      · exact hj
    refine ⟨fun j hj => hs.1 j (hentry j hj), fun j hj he => ?_⟩
    obtain ⟨h1, h2, h3⟩ := hs.2 j hj (hentry j he)
    refine ⟨h1, ?_, h3⟩
    have hmov := (hi.copied j h1).2.1
    have hline : a.line j ≠ t := fun he => by simp [he, ht] at hmov
    show v ∈ update a.st.passed t _ (a.line j)
    rwa [Function.update_of_ne hline]

end Register

/-! ## Releasing and removing -/

section Remove

variable {a : Aug} {t k n last : Nat} {strict : Prop}

/-- `finalize_thread` gives the slot back. -/
def Aug.release (a : Aug) (t : Nat) : Aug :=
  { a with
    st := { a.st with
      owner := update a.st.owner (a.slotOf t) 0
      phase := update a.st.phase t .released } }

/-- A registered thread may give its slot up. -/
theorem Inv.release (hi : Inv a) (ht : a.st.phase t = .registered) : Inv (a.release t) where
  members u := by
    have := hi.members u
    simp only [Aug.release, Function.update_apply]
    grind
  owner j := by
    have h1 := hi.owner j
    have h2 := fun u => hi.slot_inj u t
    simp only [Aug.release, Function.update_apply]
    grind [Phase.owns]
  slot_inj u v := by
    have h1 := hi.slot_inj u v
    simp only [Aug.release, Function.update_apply]
    grind [Phase.owns]
  slot_lt u := by
    have := hi.slot_lt u
    simp only [Aug.release, Function.update_apply]
    grind [Phase.owns]
  tls_slot u := by
    have := hi.tls_slot u
    simp only [Aug.release, Function.update_apply]
    grind [Phase.listed]
  line_inj := hi.line_inj
  listed u := by
    have := hi.listed u
    simp only [Aug.release, Function.update_apply]
    grind [Phase.listed]
  reserved u := by
    have := hi.reserved u
    simp only [Aug.release, Function.update_apply]
    grind
  count_le := hi.count_le
  one_moving u v := by
    have := hi.one_moving u v
    simp only [Aug.release, Function.update_apply]
    grind
  limit u := by
    have := hi.limit u
    simp only [Aug.release, Function.update_apply]
    grind
  entries := by
    have hbase : (a.release t).base = a.base := by
      funext j
      simp only [Aug.base, Aug.release, Function.update_apply]
      grind
    show a.st.entries = _
    rw [hi.entries]
    unfold Aug.shown
    rw [hbase]
    rfl
  copied k := by
    have := hi.copied k
    simp only [Aug.release, Aug.Removing, Function.update_apply] at this ⊢
    grind
  cleared k := by
    have := hi.cleared k
    simp only [Aug.release, Aug.Removing, Function.update_apply] at this ⊢
    grind
  touched := hi.touched

theorem Guar.release (hi : Inv a) : Guar strict t a (a.release t) where
  phase v hv := Function.update_of_ne hv _ _
  slot _ _ := rfl
  slotOf _ _ := rfl
  reservedAt _ _ := rfl
  cursor _ _ := rfl
  limit _ _ := rfl
  scanned _ _ := rfl
  scanners _ _ := Iff.rfl
  removing _ _ _ := ⟨rfl, rfl, rfl, fun _ => by simp [Aug.release]⟩
  sees _ v _ _ x h hx _ _ hs := hs.keep hi rfl rfl le_rfl (fun _ _ => rfl) (fun _ => id) rfl rfl

/-- `unregister_active` reads the count. -/
def Aug.begin (a : Aug) (t : Nat) : Aug :=
  { a with
    st := { a.st with
      phase := update a.st.phase t .moving
      cursor := update a.st.cursor t 0
      limit := update a.st.limit t a.st.count
      passed := fun u => (a.st.passed u).erase t } }

/-- A released thread may begin to move its entry, if nobody else does. -/
theorem Inv.begin (hi : Inv a) (ht : a.st.phase t = .released)
    (hmov : ∀ u ∈ a.st.members, a.st.phase u ≠ .moving) : Inv (a.begin t) := by
  have hnone : ∀ u, a.st.phase u ≠ .moving := fun u hu =>
    hmov u ((hi.members u).mpr (by simp [hu])) hu
  have hset : (a.begin t).stage = .settled := hi.settled hmov
  exact {
    members := fun u => by
      have := hi.members u
      simp only [Aug.begin, Function.update_apply]
      grind
    owner := fun j => by
      have h1 := hi.owner j
      simp only [Aug.begin, Function.update_apply]
      grind [Phase.owns]
    slot_inj := fun u v => by
      have h1 := hi.slot_inj u v
      simp only [Aug.begin, Function.update_apply]
      grind [Phase.owns]
    slot_lt := fun u => by
      have := hi.slot_lt u
      simp only [Aug.begin, Function.update_apply]
      grind [Phase.owns]
    tls_slot := fun u => by
      have := hi.tls_slot u
      simp only [Aug.begin, Function.update_apply]
      grind [Phase.listed]
    line_inj := hi.line_inj
    listed := fun u => by
      have := hi.listed u
      simp only [Aug.begin, Function.update_apply]
      grind [Phase.listed]
    reserved := fun u => by
      have := hi.reserved u
      simp only [Aug.begin, Function.update_apply]
      grind
    count_le := hi.count_le
    one_moving := fun u v => by
      have h1 := hnone u
      have h2 := hnone v
      simp only [Aug.begin, Function.update_apply]
      grind
    limit := fun u => by
      have := hnone u
      simp only [Aug.begin, Function.update_apply]
      grind
    entries := by
      have hbase : (a.begin t).base = a.base := by
        funext j
        simp only [Aug.base, Aug.begin, Function.update_apply]
        grind
      show a.st.entries = _
      rw [hi.entries, Aug.shown_settled (hi.settled hmov), Aug.shown_settled hset, hbase]
    copied := fun k hk => by simp [hset] at hk
    cleared := fun k hk => by simp [hset] at hk
    touched := hi.touched }

theorem Guar.begin (hi : Inv a) (hmov : ∀ u ∈ a.st.members, a.st.phase u ≠ .moving) :
    Guar strict t a (a.begin t) where
  phase v hv := Function.update_of_ne hv _ _
  slot _ _ := rfl
  slotOf _ _ := rfl
  reservedAt _ _ := rfl
  cursor v hv := Function.update_of_ne hv _ _
  limit v hv := Function.update_of_ne hv _ _
  scanned _ _ := rfl
  scanners _ _ := Iff.rfl
  removing v _ hm := absurd hm (hmov v ((hi.members v).mpr (by simp [hm])))
  sees _ v hv _ x h hx _ _ hs := hs.keep hi rfl rfl le_rfl (fun _ _ => rfl)
    (fun _ hp => Finset.mem_erase.mpr ⟨hv, hp⟩) (Function.update_of_ne hv _ _)
    (Function.update_of_ne hv _ _)

/-- The thread of the entry at `k` and the thread of position `p` change places. -/
def Aug.trade (a : Aug) (k p : Nat) : Nat → Nat :=
  update (update a.line p (a.line k)) k (a.line p)

/-- The last entry is copied over the entry at `k`, which names the slot of `t`. If that entry was
written by another thread with the same slot, the two threads trade their places. -/
def Aug.copy (a : Aug) (t k p : Nat) : Aug :=
  { a with
    st := { a.st with
      entries := update a.st.entries k (a.base (a.st.count - 1))
      touched := a.st.touched ++ [k]
      passed := update a.st.passed t (a.st.scanners.filter fun u => k < a.st.cursor u) }
    line := a.trade k p
    stage := .copied k }

theorem Aug.copy_base (hk : a.base k = some n) (hp : a.base p = some n) :
    (a.copy t k p).base = a.base := by
  rw [Aug.base_eq_some] at hk hp
  obtain ⟨hk, hkr, rfl⟩ := hk
  obtain ⟨hp, hpr, hpk⟩ := hp
  funext j
  simp only [Aug.base, Aug.copy, Aug.trade, Function.update_apply]
  grind

/-- Thread `t` removes its entry: it stands at position `p`, and the entry at `k` names its slot. -/
structure Aug.Found (a : Aug) (t k p : Nat) : Prop where
  phase : a.st.phase t = .moving
  place_lt : p < a.st.count
  place : a.line p = t
  entry : a.base k = some (a.slotOf t)
  last : a.st.phase (a.line (a.st.count - 1)) ≠ .reserved

theorem Aug.Found.base_place {p : Nat} (h : a.Found t k p) : a.base p = some (a.slotOf t) := by
  rw [Aug.base_eq_some]
  exact ⟨h.place_lt, by simp [h.place, h.phase], by rw [h.place]⟩

theorem Aug.Found.removing {p : Nat} (h : a.Found t k p) : (a.copy t k p).Removing k := by
  have hk := (Aug.base_eq_some _ _ _).mp h.entry
  refine ⟨hk.1, ?_, ?_⟩
  · simp [Aug.copy, Aug.trade, h.place, h.phase]
  · have h1 := h.phase
    have h2 := h.place
    have h3 := h.last
    simp only [Aug.copy, Aug.trade, Function.update_apply]
    grind

/-- The last entry is copied over the entry that leaves. -/
theorem Inv.copy {p : Nat} (hi : Inv a) (hs : a.stage = .settled) (h : a.Found t k p) :
    Inv (a.copy t k p) where
  members := hi.members
  owner := hi.owner
  slot_inj := hi.slot_inj
  slot_lt := hi.slot_lt
  tls_slot := hi.tls_slot
  -- the two threads at `k` and `p` change places, so all is a question of whether a position is one
  -- of these
  line_inj i j := by
    have hk := ((Aug.base_eq_some _ _ _).mp h.entry).1
    have hp := h.place_lt
    have hij := hi.line_inj i j
    have hik := hi.line_inj i k
    have hip := hi.line_inj i p
    have hjk := hi.line_inj j k
    have hjp := hi.line_inj j p
    have hkp := hi.line_inj k p
    simp only [Aug.copy, Aug.trade, Function.update_apply]
    grind
  listed u := by
    have hk := ((Aug.base_eq_some _ _ _).mp h.entry).1
    have hp := h.place_lt
    show (a.st.phase u).listed ↔ ∃ j < a.st.count, a.trade k p j = u
    rw [hi.listed]
    unfold Aug.trade
    constructor
    · rintro ⟨j, hj, rfl⟩
      by_cases hjk : j = k
      · subst hjk
        by_cases hpj : p = j
        · exact ⟨j, hk, by rw [Function.update_self, hpj]⟩
        · exact ⟨p, hp, by rw [Function.update_of_ne hpj, Function.update_self]⟩
      · by_cases hjp : j = p
        · exact ⟨k, hk, by rw [Function.update_self, hjp]⟩
        · exact ⟨j, hj, by rw [Function.update_of_ne hjk, Function.update_of_ne hjp]⟩
    · rintro ⟨j, hj, rfl⟩
      simp only [Function.update_apply]
      split
      · exact ⟨p, hp, rfl⟩
      · split
        · exact ⟨k, hk, rfl⟩
        · exact ⟨j, hj, rfl⟩
  reserved u hu := by
    obtain ⟨hlt, hline⟩ := hi.reserved u hu
    refine ⟨hlt, ?_⟩
    have hku := ((Aug.base_eq_some _ _ _).mp h.entry).2.1
    have hk : a.st.reservedAt u ≠ k := fun he => by
      rw [← he, hline] at hku
      exact hku hu
    have hp : a.st.reservedAt u ≠ p := fun he => by
      have hut : u = t := by rw [← hline, he, h.place]
      have hph : a.st.phase u = .moving := by rw [hut, h.phase]
      exact Phase.noConfusion (hph.symm.trans hu)
    show a.trade k p (a.st.reservedAt u) = u
    rw [Aug.trade, Function.update_of_ne hk, Function.update_of_ne hp, hline]
  count_le := hi.count_le
  one_moving := hi.one_moving
  limit := hi.limit
  entries := by
    have hstage : (a.copy t k p).stage = .copied k := rfl
    rw [Aug.shown_copied hstage, Aug.copy_base h.entry h.base_place]
    show update a.st.entries k _ = _
    rw [hi.entries, Aug.shown_settled hs]
    rfl
  copied j hj := by
    obtain rfl : k = j := by
      simpa [Aug.copy] using hj
    exact h.removing
  cleared j hj := by simp [Aug.copy] at hj
  touched j hj := by
    have hk := ((Aug.base_eq_some _ _ _).mp h.entry).1
    have hle := hi.count_le
    rcases List.mem_append.mp hj with hj | hj
    · exact hi.touched j hj
    · rw [List.mem_singleton.mp hj]
      omega

theorem Guar.copy {p : Nat} (hi : Inv a) (hs : a.stage = .settled) (h : a.Found t k p) :
    Guar strict t a (a.copy t k p) where
  phase _ _ := rfl
  slot _ _ := rfl
  slotOf _ _ := rfl
  reservedAt _ _ := rfl
  cursor _ _ := rfl
  limit _ _ := rfl
  scanned _ _ := rfl
  scanners _ _ := Iff.rfl
  removing v hv hm := absurd (hi.one_moving v t hm h.phase) hv
  sees _ v hv hmem x _ hx _ _ hsees := by
    obtain ⟨hk, -, -⟩ := (Aug.base_eq_some _ _ _).mp h.entry
    have hbase : a.st.entries = a.base := by rw [hi.entries, Aug.shown_settled hs]
    -- no walk had passed an entry of the slot before
    have hahead : ∀ j, a.st.entries j = some (a.slotOf x) → a.st.cursor v ≤ j := by
      intro j hj
      by_contra hlt
      have := (hsees.2 j (by omega) hj).1
      simp [hs] at this
    refine ⟨fun j hj => ?_, fun j hj he => ?_⟩
    · simp only [Aug.copy, Function.update_apply] at hj ⊢
      split at hj
      · next hjk =>
        have := hsees.1 _ (hbase ▸ hj)
        omega
      · exact hsees.1 j hj
    · simp only [Aug.copy, Function.update_apply] at hj he ⊢
      split at he
      · next hjk =>
        subst hjk
        have hcur := hahead _ (hbase ▸ he)
        refine ⟨rfl, ?_, hcur⟩
        simp only [Aug.trade, Function.update_self, h.place, if_pos, Finset.mem_filter]
        exact ⟨hmem, hj⟩
      · have := hahead j he
        omega

/-- The last entry is cleared. -/
def Aug.clearLast (a : Aug) (t k : Nat) : Aug :=
  { a with
    st := { a.st with
      entries := update a.st.entries (a.st.count - 1) none
      touched := a.st.touched ++ [a.st.count - 1]
      passed := update a.st.passed t
        (a.st.scanners.filter fun u => a.st.count - 1 < a.st.cursor u) }
    stage := .cleared k }

/-- The last entry is cleared after the copy. -/
theorem Inv.clearLast (hi : Inv a) (hs : a.stage = .copied k) : Inv (a.clearLast t k) where
  members := hi.members
  owner := hi.owner
  slot_inj := hi.slot_inj
  slot_lt := hi.slot_lt
  tls_slot := hi.tls_slot
  line_inj := hi.line_inj
  listed := hi.listed
  reserved := hi.reserved
  count_le := hi.count_le
  one_moving := hi.one_moving
  limit := hi.limit
  entries := by
    have hstage : (a.clearLast t k).stage = .cleared k := rfl
    rw [Aug.shown_cleared hstage]
    show update a.st.entries _ none = _
    rw [hi.entries, Aug.shown_copied hs]
    rfl
  copied j hj := by simp [Aug.clearLast] at hj
  cleared j hj := by
    obtain rfl : k = j := by
      simpa [Aug.clearLast] using hj
    exact hi.copied k hs
  touched j hj := by
    have hle := hi.count_le
    have hk := (hi.copied k hs).1
    rcases List.mem_append.mp hj with hj | hj
    · exact hi.touched j hj
    · rw [List.mem_singleton.mp hj]
      omega

/-- No scan that is past the hole misses the entry that is cleared, where the condition holds. -/
theorem Guar.clearLast (hi : Inv a) (hs : a.stage = .copied k) (ht : a.st.phase t = .moving)
    (hline : a.line k = t)
    (hok : strict → Unmissed t (.storeEntry (a.st.count - 1) none) a.st) :
    Guar strict t a (a.clearLast t k) where
  phase _ _ := rfl
  slot _ _ := rfl
  slotOf _ _ := rfl
  reservedAt _ _ := rfl
  cursor _ _ := rfl
  limit _ _ := rfl
  scanned _ _ := rfl
  scanners _ _ := Iff.rfl
  removing v hv hm := absurd (hi.one_moving v t hm ht) hv
  sees hstrict v hv hmem x h hx hh hhp hsees := by
    have hentry : ∀ j, (a.clearLast t k).st.entries j = some (a.slotOf x) →
        a.st.entries j = some (a.slotOf x) := by
      intro j hj
      simp only [Aug.clearLast, Function.update_apply] at hj
      split at hj
      · cases hj
      · exact hj
    refine ⟨fun j hj => hsees.1 j (hentry j hj), fun j hj he => ?_⟩
    obtain ⟨h1, h2, h3⟩ := hsees.2 j hj (hentry j he)
    -- the original of the copy still names the slot
    obtain rfl : k = j := by simpa [hs] using h1
    have hlast := hi.copied_last hs (hentry k he)
    rw [hline] at h2
    exact absurd hhp (hok hstrict ht v h2 h3 (hsees.1 _ hlast) _ hlast h hh)

/-- The count is decreased. -/
def Aug.drop (a : Aug) (t k : Nat) : Aug :=
  { a with
    st := { a.st with
      count := a.st.count - 1
      phase := update a.st.phase t .away
      members := a.st.members.erase t }
    line := update a.line k (a.line (a.st.count - 1))
    stage := .settled }

/-- Without the last position, what is stored is what the line says. -/
theorem Inv.drop_entries (hi : Inv a) (hs : a.stage = .cleared k) (hline : a.line k = t) :
    a.st.entries = (a.drop t k).base := by
  obtain ⟨hk, hmov, hlast⟩ := hi.cleared k hs
  rw [hline] at hmov
  have hinj := fun j => hi.line_inj j k
  rw [hi.entries, Aug.shown_cleared hs]
  funext j
  simp only [Aug.base, Aug.drop, Function.update_apply]
  grind

/-- The count goes down last. -/
theorem Inv.drop (hi : Inv a) (hs : a.stage = .cleared k) (hline : a.line k = t) :
    Inv (a.drop t k) where
  members u := by
    have := hi.members u
    simp only [Aug.drop, Function.update_apply, Finset.mem_erase]
    grind
  owner j := by
    have h1 := hi.owner j
    have h2 := (hi.cleared k hs).2.1
    simp only [Aug.drop, Function.update_apply]
    grind [Phase.owns]
  slot_inj u v := by
    have h1 := hi.slot_inj u v
    simp only [Aug.drop, Function.update_apply]
    grind [Phase.owns]
  slot_lt u := by
    have := hi.slot_lt u
    simp only [Aug.drop, Function.update_apply]
    grind [Phase.owns]
  tls_slot u := by
    have := hi.tls_slot u
    simp only [Aug.drop, Function.update_apply]
    grind [Phase.listed]
  line_inj i j := by
    have hk := (hi.cleared k hs).1
    have hij := hi.line_inj i j
    have hil := hi.line_inj i (a.st.count - 1)
    have hjl := hi.line_inj j (a.st.count - 1)
    simp only [Aug.drop, Function.update_apply]
    grind
  listed u := by
    have hk := (hi.cleared k hs).1
    have hlt := hi.listed u
    have hkj := fun j => hi.line_inj j k
    simp only [Aug.drop, Function.update_apply]
    by_cases hut : u = t
    · subst hut
      simp only [if_pos, Phase.listed, Bool.false_eq_true, false_iff]
      rintro ⟨j, hj, he⟩
      have hl := hi.line_inj (a.st.count - 1) k
      grind
    · rw [if_neg hut, hlt]
      constructor
      · rintro ⟨j, hj, rfl⟩
        -- the thread of the last position is now at `k`, where the leaving one was
        by_cases hjl : j = a.st.count - 1
        · subst hjl
          have hne : k ≠ a.st.count - 1 := fun he => hut (by rw [← he, hline])
          exact ⟨k, Nat.lt_of_le_of_ne (Nat.le_sub_one_of_lt hk) hne, if_pos rfl⟩
        · refine ⟨j, by omega, if_neg ?_⟩
          rintro rfl
          exact hut hline
      · rintro ⟨j, hj, he⟩
        grind
  reserved u := by
    have hr := hi.reserved u
    obtain ⟨hk, hmov, hlast⟩ := hi.cleared k hs
    simp only [Aug.drop, Function.update_apply]
    grind
  count_le := by
    have := hi.count_le
    simp only [Aug.drop]
    omega
  one_moving u v := by
    have := hi.one_moving u v
    simp only [Aug.drop, Function.update_apply]
    grind
  limit u := by
    have h1 := hi.one_moving u t
    have h2 := (hi.cleared k hs).2.1
    simp only [Aug.drop, Function.update_apply]
    grind
  entries := by
    rw [Aug.shown_settled (a := a.drop t k) rfl, ← hi.drop_entries hs hline]
    rfl
  copied j hj := by simp [Aug.drop] at hj
  cleared j hj := by simp [Aug.drop] at hj
  touched := hi.touched

theorem Guar.drop (hi : Inv a) (hs : a.stage = .cleared k) (ht : a.st.phase t = .moving) :
    Guar strict t a (a.drop t k) where
  phase v hv := Function.update_of_ne hv _ _
  slot _ _ := rfl
  slotOf _ _ := rfl
  reservedAt _ _ := rfl
  cursor _ _ := rfl
  limit _ _ := rfl
  scanned _ _ := rfl
  scanners _ _ := Iff.rfl
  removing v hv hm := absurd (hi.one_moving v t hm ht) hv
  sees _ v hv _ x _ _ _ _ hsees := by
    refine ⟨hsees.1, fun j hj he => ?_⟩
    have := (hsees.2 j hj he).1
    simp [hs] at this

end Remove

/-! ## Steps that leave the registry alone -/

section Quiet

variable {a : Aug} {s s' : State} {t k : Nat} {strict : Prop}

/-- The step of thread `t` leaves the registry, the roles and the other threads' walks alone. -/
structure Quiet (t : Nat) (s s' : State) : Prop where
  owner : s'.owner = s.owner
  count : s'.count = s.count
  entries : s'.entries = s.entries
  phase : s'.phase = s.phase
  members : s'.members = s.members
  reservedAt : s'.reservedAt = s.reservedAt
  touched : s'.touched = s.touched
  cursor : s'.cursor = s.cursor
  limit : s'.limit = s.limit
  passed : s'.passed = s.passed
  slot : ∀ u, (s'.tls u).slot = (s.tls u).slot
  scanned : ∀ u, u ≠ t → s'.scanned u = s.scanned u
  scanners : ∀ u, u ≠ t → (u ∈ s'.scanners ↔ u ∈ s.scanners)

theorem Quiet.aug (h : Quiet t s s') (hs : a.st = s) :
    ({ a with st := s' } : Aug).base = a.base ∧ ({ a with st := s' } : Aug).shown = a.shown := by
  subst hs
  have hbase : ({ a with st := s' } : Aug).base = a.base := by
    funext j
    simp only [Aug.base, h.count, h.phase]
  refine ⟨hbase, ?_⟩
  unfold Aug.shown
  rw [hbase]
  simp only [h.count]

/-- Other actions keep the registry. -/
theorem Inv.quiet (hi : Inv a) (h : Quiet t a.st s') : Inv { a with st := s' } where
  members u := by
    simp only [h.members, h.phase]
    exact hi.members u
  owner i := by
    simp only [h.owner, h.phase]
    exact hi.owner i
  slot_inj := by
    simp only [h.phase]
    exact hi.slot_inj
  slot_lt := by
    simp only [h.phase]
    exact hi.slot_lt
  tls_slot := by
    simp only [h.phase, h.slot]
    exact hi.tls_slot
  line_inj := by
    simp only [h.count]
    exact hi.line_inj
  listed := by
    simp only [h.phase, h.count]
    exact hi.listed
  reserved := by
    simp only [h.phase, h.count, h.reservedAt]
    exact hi.reserved
  count_le := by
    simp only [h.count]
    exact hi.count_le
  one_moving := by
    simp only [h.phase]
    exact hi.one_moving
  limit := by
    simp only [h.phase, h.count, h.limit]
    exact hi.limit
  entries := by
    rw [(h.aug rfl).2]
    simp only [h.entries]
    exact hi.entries
  copied := by
    simp only [Aug.Removing, h.phase, h.count]
    exact hi.copied
  cleared := by
    simp only [Aug.Removing, h.phase, h.count]
    exact hi.cleared
  touched := by
    simp only [h.touched]
    exact hi.touched

theorem Guar.quiet (hi : Inv a) (h : Quiet t a.st s') : Guar strict t a { a with st := s' } where
  phase _ _ := by simp only [h.phase]
  slot v _ := h.slot v
  slotOf _ _ := rfl
  reservedAt _ _ := by simp only [h.reservedAt]
  cursor _ _ := by simp only [h.cursor]
  limit _ _ := by simp only [h.limit]
  scanned := h.scanned
  scanners := h.scanners
  removing _ _ _ := ⟨rfl, h.count, rfl, by simp only [h.phase]; exact id⟩
  sees _ v _ _ x _ _ _ _ hs := hs.keep hi h.entries rfl h.count.ge (fun _ _ => rfl)
    (fun _ hp => by simpa only [h.passed] using hp) (by simp only [h.limit])
    (by simp only [h.cursor])

/-- The actions that leave the registry alone. -/
def Op.quiet {β : Type} : Op β → Bool
  | .casOwner .. | .releaseOwner _ | .addCount | .loadCount | .subCount | .loadEntry _
  | .storeEntry .. | .setSlot _ => false
  | _ => true

/-- What the other actions leave as it is. -/
theorem action_quiet {β : Type} {o : Op β} {b : Bool} {r : β} (ho : o.quiet = true)
    (h : action t b o s = some (r, s')) : Quiet t s s' := by
  have hrefl : Quiet t s s := by
    constructor <;> intros <;> rfl
  cases o <;> simp only [Op.quiet, Bool.false_eq_true] at ho <;> simp only [action] at h
  case casLate =>
    split at h <;> cases h
    · exact { hrefl with }
    · exact hrefl
  case casCell =>
    split at h <;> cases h
    · exact { hrefl with }
    · exact hrefl
  case reloadCell =>
    split at h <;> cases h
    · exact { hrefl with }
    · exact hrefl
  case newOrphan =>
    split at h <;> cases h
    exact { hrefl with }
  case pushRetired =>
    split at h <;> cases h
    · exact hrefl
    · exact { hrefl with slot := fun u => by simp only [Function.update_apply]; split <;> simp_all }
  case pushAction =>
    split at h <;> cases h
    · exact hrefl
    · exact { hrefl with slot := fun u => by simp only [Function.update_apply]; split <;> simp_all }
  case setRetired =>
    cases h
    exact { hrefl with slot := fun u => by simp only [Function.update_apply]; split <;> simp_all }
  all_goals
    cases h
    exact { hrefl with }

/-- A thread whose slot is not listed records another one. -/
theorem Inv.setTls (hi : Inv a) (ht : (a.st.phase t).listed = false) (ts : ThreadState) :
    Inv { a with st := { a.st with tls := update a.st.tls t ts } } :=
  { hi with
    tls_slot := fun u hu => by
      have hne : u ≠ t := by
        rintro rfl
        simp [ht] at hu
      simp only [Function.update_of_ne hne]
      exact hi.tls_slot u hu }

theorem Guar.setTls (hi : Inv a) (ts : ThreadState) :
    Guar strict t a { a with st := { a.st with tls := update a.st.tls t ts } } :=
  { Guar.refl strict t a with
    slot := fun _ hv => by simp only [Function.update_of_ne hv]
    sees := fun _ _ _ _ _ _ _ _ _ hs =>
      hs.keep hi rfl rfl le_rfl (fun _ _ => rfl) (fun _ => id) rfl rfl }

/-- A walk reads the count. -/
def Aug.walk (a : Aug) (t : Nat) : Aug :=
  { a with
    st := { a.st with
      cursor := update a.st.cursor t 0
      limit := update a.st.limit t a.st.count
      passed := fun u => (a.st.passed u).erase t } }

theorem Inv.walk (hi : Inv a) : Inv (a.walk t) :=
  { hi with
    limit := fun u hu => by
      have := hi.limit u hu
      simp only [Aug.walk, Function.update_apply]
      grind }

theorem Guar.walk (hi : Inv a) : Guar strict t a (a.walk t) :=
  { Guar.refl strict t a with
    cursor := fun _ hv => Function.update_of_ne hv _ _
    limit := fun _ hv => Function.update_of_ne hv _ _
    sees := fun _ _ hv _ _ _ _ _ _ hs => hs.keep hi rfl rfl le_rfl (fun _ _ => rfl)
      (fun _ hp => Finset.mem_erase.mpr ⟨hv, hp⟩) (Function.update_of_ne hv _ _)
      (Function.update_of_ne hv _ _) }

/-- A walk reads an entry. -/
def Aug.look (a : Aug) (t k : Nat) : Aug :=
  { a with
    st := { a.st with
      touched := a.st.touched ++ [k]
      cursor := update a.st.cursor t (k + 1)
      reading := update a.st.reading t none } }

/-- A scan remembers how far it has come. -/
theorem Inv.look (hi : Inv a) (hk : k < MAX_THREADS) : Inv (a.look t k) :=
  { hi with
    touched := fun j hj => by
      rcases List.mem_append.mp hj with hj | hj
      · exact hi.touched j hj
      · rw [List.mem_singleton.mp hj]
        exact hk }

theorem Guar.look (hi : Inv a) : Guar strict t a (a.look t k) :=
  { Guar.refl strict t a with
    cursor := fun _ hv => Function.update_of_ne hv _ _
    sees := fun _ _ hv _ _ _ _ _ _ hs => hs.keep hi rfl rfl le_rfl (fun _ _ => rfl)
      (fun _ => id) rfl (Function.update_of_ne hv _ _) }

end Quiet

end MpmcMap.Reclaim.Hazard
