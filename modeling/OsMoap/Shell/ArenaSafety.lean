import OsMoap.Shell.Arena
import Mathlib.Data.List.Nodup
import Mathlib.Data.List.Perm.Subperm

/-!
# The Stack Is Never Used Wrongly

Whatever an evaluation does, it leaves what lay below it on the stack alone: `Over P` says that a
state has the blocks of `P` under its own, and that these are as they were up to the place where the
evaluation began.  Every act keeps it, and none is ever undefined, whatever the allocator does
(`Act.run_safe`).  A tree that returns gives the stack back (`evaltree_restores`), and a substitution
however it ends (`osdEvalbackcmdInproc_restores`), so a word keeps what has been written of it
while the stack under it is swapped, moved and grown (`expandarg_value`).
-/

namespace OsMoap.Shell.Arena

open OsMoap.Lib OsMoap.Pack

/-! ## Chains of blocks -/

/-- The blocks from `sp` on, up to `until_`. -/
def Linked (h : ℕ → Option Block) (until_ : Option ℕ) : Option ℕ → List ℕ → Prop
  | sp, [] => sp = until_
  | sp, a :: rest => sp = some a ∧ ∃ b, h a = some b ∧ Linked h until_ b.prev rest

theorem Linked.live {h : ℕ → Option Block} {until_ sp : Option ℕ} {c : List ℕ}
    (hc : Linked h until_ sp c) {a : ℕ} (ha : a ∈ c) : h a ≠ none := by
  induction c generalizing sp with
  | nil => cases ha
  | cons a' c ih =>
    obtain ⟨-, b, hb, hrest⟩ := hc
    rcases List.mem_cons.mp ha with rfl | ha
    · rw [hb]
      exact Option.some_ne_none b
    · exact ih hrest ha

/-- Only the links matter. -/
theorem Linked.congr {h h' : ℕ → Option Block} {until_ sp : Option ℕ} {c : List ℕ}
    (hc : Linked h until_ sp c)
    (hkept : ∀ a ∈ c, (h' a).map Block.prev = (h a).map Block.prev) : Linked h' until_ sp c := by
  induction c generalizing sp with
  | nil => exact hc
  | cons a c ih =>
    obtain ⟨hsp, b, hb, hrest⟩ := hc
    have ha := hkept a List.mem_cons_self
    rw [hb, Option.map_some, Option.map_eq_some_iff] at ha
    obtain ⟨b', hb', hprev⟩ := ha
    refine ⟨hsp, b', hb', ?_⟩
    rw [hprev]
    exact ih hrest fun a' ha' => hkept a' (List.mem_cons_of_mem a ha')

theorem linked_append {h : ℕ → Option Block} {until_ sp : Option ℕ} {c c' : List ℕ} :
    Linked h until_ sp (c ++ c') ↔ ∃ mid, Linked h mid sp c ∧ Linked h until_ mid c' := by
  induction c generalizing sp with
  | nil => exact ⟨fun hc => ⟨sp, rfl, hc⟩, fun ⟨mid, hsp, hc⟩ => hsp ▸ hc⟩
  | cons a c ih =>
    constructor
    · rintro ⟨hsp, b, hb, hrest⟩
      obtain ⟨mid, hfirst, hlast⟩ := ih.mp hrest
      exact ⟨mid, ⟨hsp, b, hb, hfirst⟩, hlast⟩
    · rintro ⟨mid, ⟨hsp, b, hb, hfirst⟩, hlast⟩
      exact ⟨hsp, b, hb, ih.mpr ⟨mid, hfirst, hlast⟩⟩

/-- A chain begins with the block it is reached by. -/
theorem Linked.head {h : ℕ → Option Block} {sp : Option ℕ} {c : List ℕ} (hc : Linked h none sp c) :
    sp = c.head? := by
  cases c with
  | nil => exact hc
  | cons a c => exact hc.1

/-- There are no more blocks than places in the heap. -/
theorem Linked.length_le {t : Heap} {until_ sp : Option ℕ} {c : List ℕ}
    (hc : Linked t.get until_ sp c) (hnodup : c.Nodup) : c.length ≤ t.slots.length := by
  have hsub : c ⊆ List.range t.slots.length := by
    intro a ha
    rw [List.mem_range]
    by_contra hle
    exact hc.live ha (Table.get_eq_none_of_length_le (Nat.le_of_not_lt hle))
  have hlength := (hnodup.subperm hsub).length_le
  rwa [List.length_range] at hlength

theorem freeBlocks_self (until_ : Option ℕ) (fuel : ℕ) : freeBlocks until_ fuel until_ = pure () := by
  cases fuel <;> cases until_ <;> simp [freeBlocks]

/-- **Freeing blocks**: exactly the blocks up to the stop are gone. -/
theorem wp_freeBlocks {until_ sp : Option ℕ} {c : List ℕ} {fuel : ℕ} {s : Memstack}
    (hc : Linked s.heap.get until_ sp c) (hnodup : c.Nodup) (hbase : stackbase ∉ c)
    (huntil : ∀ a ∈ c, until_ ≠ some a) (hfuel : c.length ≤ fuel) :
    (freeBlocks until_ fuel sp).wp
      (fun _ s' => ∃ heap, s' = { s with heap := heap } ∧
        heap.get = fun a => if a ∈ c then none else s.heap.get a)
      (fun _ _ => False) s := by
  induction c generalizing sp fuel s with
  | nil =>
    obtain rfl : sp = until_ := hc
    rw [freeBlocks_self]
    refine ⟨s.heap, rfl, ?_⟩
    funext a
    rw [if_neg List.not_mem_nil]
  | cons a c ih =>
    obtain ⟨rfl, b, hb, hrest⟩ := hc
    obtain ⟨hnotMem, hnodup'⟩ := List.nodup_cons.mp hnodup
    obtain ⟨fuel, rfl⟩ : ∃ n, fuel = n + 1 :=
      Nat.exists_eq_succ_of_ne_zero (Nat.ne_of_gt (Nat.lt_of_lt_of_le (Nat.succ_pos c.length) hfuel))
    have hne : some a ≠ until_ := fun heq => huntil a List.mem_cons_self heq.symm
    have hstack : a ≠ stackbase := by
      rintro rfl
      exact hbase List.mem_cons_self
    rw [freeBlocks, if_neg hne, Program.wp_bind, Program.wp_read, hb]
    dsimp only
    rw [if_neg hstack, Program.wp_bind, Program.wp_modify]
    have hlinked : Linked (s.heap.set a none).get until_ b.prev c := by
      apply hrest.congr
      intro a' ha'
      rw [Table.get_set_of_ne]
      rintro rfl
      exact hnotMem ha'
    have hnext := ih (s := { s with heap := s.heap.set a none }) hlinked hnodup'
      (fun hmem => hbase (List.mem_cons_of_mem a hmem))
      (fun a' ha' => huntil a' (List.mem_cons_of_mem a ha')) (Nat.le_of_succ_le_succ hfuel)
    apply Program.wp_mono hnext
    · rintro _ s' ⟨heap, rfl, hheap⟩
      refine ⟨heap, rfl, ?_⟩
      rw [hheap]
      funext a'
      dsimp only
      rw [Table.get_set]
      by_cases heq : a' = a
      · have hmem : a' ∈ a :: c := List.mem_cons.mpr (Or.inl heq)
        rw [if_pos heq, if_pos hmem, ite_self]
      · rw [if_neg heq]
        simp only [List.mem_cons, heq, false_or]
    · exact fun _ _ hfalse => hfalse

/-! ## What is below -/

/-- A heap, the chain of blocks that a run of the allocator finds below it, and how much of the
first of them is in use. -/
structure Protected where
  heap : ℕ → Option Block
  chain : List ℕ
  floor : ℕ

/-- `growstackblock` moves no block that is protected. -/
structure Protected.Anchored (P : Protected) : Prop where
  base : P.heap stackbase ≠ none
  fixed : ∀ t, P.chain.head? = some t → 0 < P.floor ∨ t = stackbase

/-- The registers agree with the block they are about. -/
structure Regs (s : Memstack) : Prop where
  block : s.stacknxt.block = s.stackp
  room : ∃ b, s.heap.get s.stackp = some b ∧ s.stacknxt.off + s.stacknleft = b.size
  strend : s.sstrend = s.stacknxt.add s.stacknleft
  aligned : 8 ∣ s.stacknleft
  /-- A block is not empty. -/
  pos : 0 < s.stacknxt.off + s.stacknleft

/-- A block is what it was up to an offset. -/
structure Block.Agrees (floor : ℕ) (b b' : Block) : Prop where
  prev : b'.prev = b.prev
  size : b'.size = b.size
  bytes : ∀ i < floor, b'.bytes i = b.bytes i

/-- The state has the blocks `extra` over those of `P`, and the latter as they were. -/
structure Over (P : Protected) (extra : List ℕ) (s : Memstack) : Prop where
  chain : Linked s.heap.get none (some s.stackp) (extra ++ P.chain)
  nodup : (extra ++ P.chain).Nodup
  fresh : ∀ a ∈ extra, P.heap a = none
  kept : ∀ a ∉ extra, P.chain.head? ≠ some a → s.heap.get a = P.heap a
  top : ∀ t, P.chain.head? = some t →
    ∃ b b', P.heap t = some b ∧ s.heap.get t = some b' ∧ b.Agrees P.floor b'
  low : extra = [] → P.floor ≤ s.stacknxt.off
  regs : Regs s

def Within (P : Protected) (s : Memstack) : Prop := ∃ extra, Over P extra s

/-- What is left when a program does not return. -/
def Fails (P : Protected) : Stop → Memstack → Prop
  | .raised, s => Within P s
  | .undefined, _ => False
  | .died, _ => True

/-- A place that nothing below owns. -/
def Free (P : Protected) (extra : List ℕ) (p : Ptr) : Prop :=
  p.block ∈ extra ∨ (P.chain.head? = some p.block ∧ P.floor ≤ p.off)

section

variable {P : Protected} {extra : List ℕ} {s : Memstack}

theorem Over.stackp_mem (h : Over P extra s) : s.stackp ∈ extra ++ P.chain := by
  have hhead := h.chain.head
  cases hc : extra ++ P.chain with
  | nil =>
    rw [hc] at hhead
    cases hhead
  | cons a c =>
    rw [hc] at hhead
    cases hhead
    exact List.mem_cons_self

/-- The current block is one of the new ones, or the first of the old ones. -/
theorem Over.stackp_cases (h : Over P extra s) :
    (∃ rest, extra = s.stackp :: rest) ∨ (extra = [] ∧ P.chain.head? = some s.stackp) := by
  have hhead := h.chain.head
  cases extra with
  | nil => exact Or.inr ⟨rfl, hhead.symm⟩
  | cons a rest =>
    cases hhead
    exact Or.inl ⟨rest, rfl⟩

theorem Over.base_notMem (h : Over P extra s) (hP : P.Anchored) : stackbase ∉ extra :=
  fun hmem => hP.base (h.fresh stackbase hmem)

/-- `stackbase` is always there. -/
theorem Over.base_live (h : Over P extra s) (hP : P.Anchored) : s.heap.get stackbase ≠ none := by
  by_cases htop : P.chain.head? = some stackbase
  · obtain ⟨b, b', -, hb', -⟩ := h.top stackbase htop
    rw [hb']
    exact Option.some_ne_none b'
  · rw [h.kept stackbase (h.base_notMem hP) htop]
    exact hP.base

/-- An address that is not live is new everywhere. -/
theorem Over.new (h : Over P extra s) {a : ℕ} (ha : s.heap.get a = none) :
    a ∉ extra ++ P.chain ∧ P.heap a = none := by
  have hnotMem : a ∉ extra ++ P.chain := fun hmem => h.chain.live hmem ha
  refine ⟨hnotMem, ?_⟩
  rw [List.mem_append, not_or] at hnotMem
  rw [← h.kept a hnotMem.1, ha]
  intro htop
  apply hnotMem.2
  exact List.mem_of_mem_head? htop

/-- Bytes from `stacknxt` on are free. -/
theorem Over.free (h : Over P extra s) {p : Ptr} (hblock : p.block = s.stackp)
    (hoff : s.stacknxt.off ≤ p.off) : Free P extra p := by
  rcases h.stackp_cases with ⟨rest, heq⟩ | ⟨heq, htop⟩
  · left
    rw [hblock, heq]
    exact List.mem_cons_self
  · right
    rw [hblock]
    exact ⟨htop, (h.low heq).trans hoff⟩

theorem Block.put_bytes_of_lt {b : Block} {off i : ℕ} (h : i < off) (bs : Bytes) :
    (b.put off bs).bytes i = b.bytes i := if_neg fun hin => Nat.not_le_of_lt h hin.1

/-- A free place is written to. -/
theorem Over.put (h : Over P extra s) {p : Ptr} (hfree : Free P extra p) {b : Block}
    (hb : s.heap.get p.block = some b) (bs : Bytes) :
    Over P extra { s with heap := s.heap.set p.block (some (b.put p.off bs)) } where
  chain := by
    apply h.chain.congr
    intro a _
    dsimp only
    rw [Table.get_set]
    split_ifs with heq
    · rw [heq, hb]
      rfl
    · rfl
  nodup := h.nodup
  fresh := h.fresh
  kept a ha htop := by
    dsimp only
    rw [Table.get_set_of_ne]
    · exact h.kept a ha htop
    · rintro rfl
      rcases hfree with hmem | ⟨hhead, -⟩
      · exact ha hmem
      · exact htop hhead
  top t ht := by
    obtain ⟨b₀, b₁, hb₀, hb₁, hagrees⟩ := h.top t ht
    dsimp only
    rw [Table.get_set]
    split_ifs with heq
    · -- only bytes above the floor are written
      obtain rfl : b = b₁ := by
        rw [heq, hb, Option.some_inj] at hb₁
        exact hb₁
      have hfloor : P.floor ≤ p.off := by
        rcases hfree with hmem | ⟨-, hfloor⟩
        · exfalso
          rw [← heq] at hmem
          have hdisjoint := (List.nodup_append.mp h.nodup).2.2 t hmem t (List.mem_of_mem_head? ht)
          exact hdisjoint rfl
        · exact hfloor
      refine ⟨b₀, _, hb₀, rfl, hagrees.prev, hagrees.size, fun i hi => ?_⟩
      rw [Block.put_bytes_of_lt (Nat.lt_of_lt_of_le hi hfloor)]
      exact hagrees.bytes i hi
    · exact ⟨b₀, b₁, hb₀, hb₁, hagrees⟩
  low := h.low
  regs := by
    obtain ⟨b₀, hb₀, hroom⟩ := h.regs.room
    refine ⟨h.regs.block, ?_, h.regs.strend, h.regs.aligned, h.regs.pos⟩
    dsimp only
    rw [Table.get_set]
    split_ifs with heq
    · rw [heq, hb, Option.some_inj] at hb₀
      exact ⟨_, rfl, hb₀ ▸ hroom⟩
    · exact ⟨b₀, hb₀, hroom⟩

/-- Registers of the expansion are of no account. -/
theorem Over.setExpdest (h : Over P extra s) (p : Option Ptr) :
    Over P extra { s with expdest := p } :=
  ⟨h.chain, h.nodup, h.fresh, h.kept, h.top, h.low,
    ⟨h.regs.block, h.regs.room, h.regs.strend, h.regs.aligned, h.regs.pos⟩⟩

/-! ## Allocating -/

theorem shellAlign_dvd (n : ℕ) : 8 ∣ shellAlign n := Nat.dvd_mul_left 8 _

theorem le_shellAlign (n : ℕ) : n ≤ shellAlign n := by
  rw [shellAlign]
  omega

theorem shellAlign_of_dvd {n : ℕ} (h : 8 ∣ n) : shellAlign n = n := by
  rw [shellAlign]
  omega

/-- What is left of a block is a multiple of eight, and so is what is taken. -/
theorem shellAlign_le {n k : ℕ} (h : n ≤ k) (hk : 8 ∣ k) : shellAlign n ≤ k := by
  rw [shellAlign]
  omega

/-- With room in the block nothing is allocated. -/
theorem stalloc_of_room (m : Malloc) {n : ℕ} (h : shellAlign n ≤ s.stacknleft) :
    stalloc m n s = (.ok s.stacknxt,
      { s with
        stacknxt := s.stacknxt.add (shellAlign n), stacknleft := s.stacknleft - shellAlign n }) := by
  have hnot : ¬ s.stacknleft < shellAlign n := Nat.not_lt_of_le h
  simp only [stalloc, Program.read_bind, if_neg hnot]
  rfl

theorem Over.take (h : Over P extra s) {n : ℕ} (hn : 8 ∣ n) (hroom : n ≤ s.stacknleft) :
    Over P extra
      { s with stacknxt := s.stacknxt.add n, stacknleft := s.stacknleft - n } where
  chain := h.chain
  nodup := h.nodup
  fresh := h.fresh
  kept := h.kept
  top := h.top
  low heq := (h.low heq).trans (Nat.le_add_right _ n)
  regs := by
    obtain ⟨b, hb, hsize⟩ := h.regs.room
    have hpos := h.regs.pos
    refine ⟨h.regs.block, ⟨b, hb, ?_⟩, ?_, Nat.dvd_sub h.regs.aligned hn, ?_⟩
    · dsimp only [Ptr.add]
      omega
    · rw [h.regs.strend, Ptr.add, Ptr.add, Ptr.add, Ptr.mk.injEq]
      exact ⟨rfl, by dsimp only; omega⟩
    · dsimp only [Ptr.add]
      omega

/-- **A new block** goes on top. -/
theorem wp_newBlock (m : Malloc) (h : Over P extra s) {blocksize : ℕ} (hsize : 8 ∣ blocksize)
    (hpos : 0 < blocksize) :
    (newBlock m blocksize).wp
      (fun _ s' => ∃ sp, s.heap.get sp = none ∧ Over P (sp :: extra) s' ∧ s'.stacknxt = ⟨sp, 0⟩ ∧
        s'.stacknleft = blocksize ∧ s'.expdest = s.expdest ∧
        (∀ a, a ≠ sp → s'.heap.get a = s.heap.get a))
      (Fails P) s := by
  rw [newBlock]
  split_ifs
  · exact ⟨extra, h⟩
  · rw [Program.wp_bind, Program.wp_read]
    cases hmalloc : m.malloc s.heap (header + blocksize) with
    | none => trivial
    | some sp =>
      have hfree := m.malloc_free hmalloc
      obtain ⟨hnew, hPnew⟩ := h.new hfree
      dsimp only
      rw [Program.wp_modify]
      have hothers : ∀ a, a ≠ sp →
          (s.heap.set sp (some ⟨some s.stackp, blocksize, m.junk⟩)).get a = s.heap.get a :=
        fun a ha => Table.get_set_of_ne _ ha _
      have hne : ∀ a ∈ extra ++ P.chain, a ≠ sp := by
        rintro a ha rfl
        exact hnew ha
      refine ⟨sp, hfree, ?_, rfl, rfl, rfl, hothers⟩
      constructor
      · refine ⟨rfl, _, Table.get_set_self _ _ _, ?_⟩
        apply h.chain.congr
        intro a ha
        rw [hothers a (hne a ha)]
      · exact List.nodup_cons.mpr ⟨hnew, h.nodup⟩
      · intro a ha
        rcases List.mem_cons.mp ha with rfl | ha
        · exact hPnew
        · exact h.fresh a ha
      · intro a ha htop
        rw [List.mem_cons, not_or] at ha
        exact (hothers a ha.1).trans (h.kept a ha.2 htop)
      · intro t ht
        obtain ⟨b, b', hb, hb', hagrees⟩ := h.top t ht
        have hmem : t ∈ extra ++ P.chain := List.mem_append_right _ (List.mem_of_mem_head? ht)
        exact ⟨b, b', hb, (hothers t (hne t hmem)).trans hb', hagrees⟩
      · exact fun heq => (nomatch heq)
      · refine ⟨rfl, ⟨_, Table.get_set_self _ _ _, Nat.zero_add _⟩, ?_, hsize, ?_⟩
        · rw [Ptr.add, Nat.zero_add]
        · rwa [Nat.zero_add]

/-- What `stalloc` takes its space from: the block there is, or a new one. -/
structure Room (s : Memstack) (n : ℕ) (extra : List ℕ) (s₁ : Memstack) (extra₁ : List ℕ) : Prop where
  fits : shellAlign n ≤ s₁.stacknleft
  expdest : s₁.expdest = s.expdest
  same : shellAlign n ≤ s.stacknleft → s₁ = s ∧ extra₁ = extra
  new : s.stacknleft < shellAlign n → ∃ sp, extra₁ = sp :: extra ∧ s.heap.get sp = none ∧
    s₁.stacknxt = ⟨sp, 0⟩ ∧ s₁.stacknleft = max (shellAlign n) minsize ∧
    ∀ a, a ≠ sp → s₁.heap.get a = s.heap.get a

/-- **Allocating**, from a state with room. -/
theorem wp_stalloc (m : Malloc) (h : Over P extra s) (n : ℕ) :
    (stalloc m n).wp
      (fun p s' => ∃ s₁ extra₁, Over P extra₁ s₁ ∧ Room s n extra s₁ extra₁ ∧ p = s₁.stacknxt ∧
        s' = { s₁ with
          stacknxt := s₁.stacknxt.add (shellAlign n)
          stacknleft := s₁.stacknleft - shellAlign n })
      (Fails P) s := by
  by_cases hroom : shellAlign n ≤ s.stacknleft
  · rw [Program.wp_of_ok (stalloc_of_room m hroom)]
    refine ⟨s, extra, h, ⟨hroom, rfl, fun _ => ⟨rfl, rfl⟩, fun hlt => ?_⟩, rfl, rfl⟩
    exact absurd hroom (Nat.not_le_of_lt hlt)
  · have hlt := Nat.lt_of_not_le hroom
    have hsize : 8 ∣ max (shellAlign n) minsize := by
      rcases Nat.le_total (shellAlign n) minsize with hle | hle
      · rw [Nat.max_eq_right hle]
        exact shellAlign_dvd 504
      · rw [Nat.max_eq_left hle]
        exact shellAlign_dvd n
    have hpos : 0 < max (shellAlign n) minsize :=
      Nat.lt_of_lt_of_le (by decide : 0 < minsize) (Nat.le_max_right ..)
    rw [stalloc, Program.wp_bind, Program.wp_read, if_pos hlt, Program.wp_bind]
    apply Program.wp_mono (wp_newBlock m h hsize hpos)
    · rintro _ s₁ ⟨sp, hfree, hover, hnxt, hnleft, hexpdest, hothers⟩
      rw [Program.wp_bind, Program.wp_read, Program.wp_bind, Program.wp_modify, Program.wp_pure]
      refine ⟨s₁, sp :: extra, hover, ⟨?_, hexpdest, fun hle => ?_, fun _ => ?_⟩, rfl, rfl⟩
      · rw [hnleft]
        exact Nat.le_max_left ..
      · exact absurd hle hroom
      · exact ⟨sp, rfl, hfree, hnxt, hnleft, hothers⟩
    · exact fun _ _ hfails => hfails

/-- A state after an allocation. -/
theorem Over.taken {s₁ : Memstack} {extra₁ : List ℕ} {n : ℕ} (h : Over P extra₁ s₁)
    (hroom : Room s n extra s₁ extra₁) :
    Over P extra₁
      { s₁ with
        stacknxt := s₁.stacknxt.add (shellAlign n)
        stacknleft := s₁.stacknleft - shellAlign n } := h.take (shellAlign_dvd n) hroom.fits

end

/-! ## Strings under construction -/

/-- The bytes from `stacknxt` on are those of `w`. -/
structure Holds (s : Memstack) (w : Bytes) : Prop where
  length : w.length ≤ s.stacknleft
  bytes : ∃ b, s.heap.get s.stackp = some b ∧
    ∀ (i : ℕ) (hi : i < w.length), b.bytes (s.stacknxt.off + i) = w[i]

theorem holds_nil {P : Protected} {extra : List ℕ} {s : Memstack} (h : Over P extra s) :
    Holds s [] := by
  obtain ⟨b, hb, -⟩ := h.regs.room
  exact ⟨Nat.zero_le _, b, hb, fun i hi => absurd hi (Nat.not_lt_zero i)⟩

theorem grownLength_dvd {nleft : ℕ} (h : 8 ∣ nleft) (min : ℕ) : 8 ∣ grownLength nleft min := by
  have hmin := shellAlign_dvd (min ||| 128)
  rw [grownLength]
  split_ifs
  · omega
  · omega

/-- The room grows, and there is room for what was asked. -/
theorem lt_grownLength (nleft min : ℕ) :
    nleft < grownLength nleft min ∧ min ≤ grownLength nleft min := by
  have hmin := le_shellAlign (min ||| 128)
  have hleft : min ≤ min ||| 128 := Nat.left_le_or
  have hright : 128 ≤ min ||| 128 := Nat.right_le_or
  rw [grownLength]
  split_ifs
  · omega
  · omega

/-- The bytes of a block from an offset on. -/
theorem wp_load {s : Memstack} {p : Ptr} {n : ℕ} {b : Block} (hb : s.heap.get p.block = some b)
    (hsize : p.off + n ≤ b.size) {Q : Bytes → Memstack → Prop} {E : Stop → Memstack → Prop} :
    (load p n).wp Q E s ↔ Q ((List.range n).map fun i => b.bytes (p.off + i)) s := by
  rw [load, Program.wp_bind, Program.wp_read, hb]
  dsimp only
  rw [if_pos hsize, Program.wp_pure]

theorem wp_store {s : Memstack} {p : Ptr} {bs : Bytes} {b : Block}
    (hb : s.heap.get p.block = some b) (hsize : p.off + bs.length ≤ b.size)
    {Q : Unit → Memstack → Prop} {E : Stop → Memstack → Prop} :
    (store p bs).wp Q E s ↔
      Q () { s with heap := s.heap.set p.block (some (b.put p.off bs)) } := by
  rw [store, Program.wp_bind, Program.wp_read, hb]
  dsimp only
  rw [if_pos hsize, Program.wp_modify]

theorem Block.put_bytes_of_mem {b : Block} {off i : ℕ} {bs : Bytes} (h : i < bs.length) :
    (b.put off bs).bytes (off + i) = bs[i] := by
  have hin : off ≤ off + i ∧ off + i < off + bs.length := by omega
  rw [Block.put]
  dsimp only
  rw [if_pos hin, Nat.add_sub_cancel_left]
  exact (List.getElem_eq_getD 0).symm

section

variable {P : Protected} {extra : List ℕ} {s : Memstack}

/-- **Growing**: the bytes of the string move with it, and nothing below is touched. -/
theorem wp_growstackblock (m : Malloc) (hP : P.Anchored) (h : Over P extra s) (min : ℕ) :
    (growstackblock m min).wp
      (fun _ s' => Within P s' ∧ s.stacknleft < s'.stacknleft ∧ min ≤ s'.stacknleft ∧
        s'.expdest = s.expdest ∧ ∀ w, Holds s w → Holds s' w)
      (Fails P) s := by
  obtain ⟨b, hb, hroom⟩ := h.regs.room
  obtain ⟨hlt, hle⟩ := lt_grownLength s.stacknleft min
  have hdvd := grownLength_dvd h.regs.aligned min
  rw [growstackblock, Program.wp_bind, Program.wp_read]
  dsimp only
  generalize grownLength s.stacknleft min = newlen at hlt hle hdvd ⊢
  by_cases hwrap : 2 ^ 32 ≤ s.stacknleft * 2
  · rw [if_pos hwrap]
    exact ⟨extra, h⟩
  rw [if_neg hwrap]
  by_cases hmove : s.stacknxt = ⟨s.stackp, 0⟩ ∧ s.stackp ≠ stackbase
  · rw [if_pos hmove, hb]
    obtain ⟨hnxt, hbase⟩ := hmove
    -- a block that something is kept in does not begin at `stacknxt`
    obtain ⟨rest, rfl⟩ : ∃ rest, extra = s.stackp :: rest := by
      rcases h.stackp_cases with hrest | ⟨heq, htop⟩
      · exact hrest
      · exfalso
        have hfloor := h.low heq
        rw [hnxt] at hfloor
        rcases hP.fixed s.stackp htop with hpos | hstack
        · exact absurd hfloor (Nat.not_le_of_lt hpos)
        · exact hbase hstack
    cases hrealloc : m.realloc s.heap s.stackp (header + newlen) with
    | none => trivial
    | some sp =>
      dsimp only
      rw [Program.wp_modify]
      obtain ⟨-, b', hb', hrest⟩ := h.chain
      obtain rfl : b' = b := by
        rw [hb, Option.some_inj] at hb'
        exact hb'.symm
      obtain ⟨hnotMem, hnodup⟩ := List.nodup_cons.mp h.nodup
      have hnew : sp ∉ rest ++ P.chain ∧ P.heap sp = none := by
        rcases m.realloc_free hrealloc with rfl | hfree
        · exact ⟨hnotMem, h.fresh _ List.mem_cons_self⟩
        · obtain ⟨hnew, hPnew⟩ := h.new hfree
          exact ⟨fun hmem => hnew (List.mem_cons_of_mem _ hmem), hPnew⟩
      have hsize : b'.size = s.stacknleft := by
        rw [hnxt] at hroom
        dsimp only at hroom
        omega
      let bytes := fun i => if i < b'.size then b'.bytes i else m.junk i
      have hget : ∀ a, ((s.heap.set s.stackp none).set sp (some ⟨b'.prev, newlen, bytes⟩)).get a =
          if a = sp then some ⟨b'.prev, newlen, bytes⟩
          else if a = s.stackp then none else s.heap.get a := by
        intro a
        rw [Table.get_set, Table.get_set]
      have hothers : ∀ a ∈ rest ++ P.chain,
          ((s.heap.set s.stackp none).set sp (some ⟨b'.prev, newlen, bytes⟩)).get a =
            s.heap.get a := by
        intro a ha
        have hasp : a ≠ sp := by
          rintro rfl
          exact hnew.1 ha
        have hastackp : a ≠ s.stackp := by
          rintro rfl
          exact hnotMem ha
        rw [hget, if_neg hasp, if_neg hastackp]
      have hover : Over P (sp :: rest) { s with
          heap := (s.heap.set s.stackp none).set sp (some ⟨b'.prev, newlen, bytes⟩)
          stackp := sp, stacknxt := ⟨sp, 0⟩, stacknleft := newlen, sstrend := ⟨sp, newlen⟩ } := by
        constructor
        · refine ⟨rfl, _, Table.get_set_self _ _ _, ?_⟩
          apply hrest.congr
          intro a ha
          dsimp only
          rw [hothers a ha]
        · exact List.nodup_cons.mpr ⟨hnew.1, hnodup⟩
        · intro a ha
          rcases List.mem_cons.mp ha with rfl | ha
          · exact hnew.2
          · exact h.fresh a (List.mem_cons_of_mem _ ha)
        · intro a ha htop
          rw [List.mem_cons, not_or] at ha
          dsimp only
          rw [hget, if_neg ha.1]
          split_ifs with heq
          · rw [heq]
            exact (h.fresh _ List.mem_cons_self).symm
          · apply h.kept a _ htop
            rw [List.mem_cons, not_or]
            exact ⟨heq, ha.2⟩
        · intro t ht
          obtain ⟨b₀, b₁, hb₀, hb₁, hagrees⟩ := h.top t ht
          have hmem : t ∈ rest ++ P.chain := List.mem_append_right _ (List.mem_of_mem_head? ht)
          exact ⟨b₀, b₁, hb₀, (hothers t hmem).trans hb₁, hagrees⟩
        · exact fun heq => (nomatch heq)
        · refine ⟨rfl, ⟨_, Table.get_set_self _ _ _, Nat.zero_add _⟩, ?_, hdvd, ?_⟩
          · rw [Ptr.add, Nat.zero_add]
          · dsimp only
            omega
      refine ⟨⟨_, hover⟩, hlt, hle, rfl, fun w hw => ?_⟩
      refine ⟨hw.length.trans (Nat.le_of_lt hlt), _, Table.get_set_self _ _ _, fun i hi => ?_⟩
      obtain ⟨b₀, hb₀, hbytes⟩ := hw.bytes
      obtain rfl : b₀ = b' := by
        rw [hb, Option.some_inj] at hb₀
        exact hb₀.symm
      have hin : 0 + i < b₀.size := by
        have hlength := hw.length
        omega
      rw [← hbytes i hi, hnxt]
      exact if_pos hin
  · rw [if_neg hmove, Program.wp_bind]
    apply Program.wp_mono (wp_stalloc m h newlen)
    · rintro p s₂ ⟨s₁, extra₁, h₁, hroom₁, rfl, rfl⟩
      have halign : shellAlign newlen = newlen := shellAlign_of_dvd hdvd
      obtain ⟨sp, rfl, hfree, hnxt₁, hnleft₁, hothers⟩ := hroom₁.new (by rw [halign]; exact hlt)
      have hne : s.stackp ≠ sp := by
        rintro rfl
        rw [hfree] at hb
        cases hb
      have hfits := hroom₁.fits
      rw [halign] at hfits ⊢
      -- the old string is still where it was
      have hb₁ : s₁.heap.get s.stacknxt.block = some b := by
        rw [h.regs.block, hothers _ hne, hb]
      rw [Program.wp_bind]
      refine (wp_load ?_ (Nat.le_of_eq hroom)).mpr ?_
      · exact hb₁
      have hlength : ((List.range s.stacknleft).map fun i => b.bytes (s.stacknxt.off + i)).length =
          s.stacknleft := by
        rw [List.length_map, List.length_range]
      have hold : ∀ (i : ℕ) (hi : i < ((List.range s.stacknleft).map
          fun i => b.bytes (s.stacknxt.off + i)).length),
          ((List.range s.stacknleft).map fun i => b.bytes (s.stacknxt.off + i))[i] =
            b.bytes (s.stacknxt.off + i) := by
        intro i hi
        rw [List.getElem_map, List.getElem_range]
      generalize ((List.range s.stacknleft).map fun i => b.bytes (s.stacknxt.off + i)) = old
        at hlength hold ⊢
      obtain ⟨b₂, hb₂, hsize₂⟩ := h₁.regs.room
      have hb₂' : s₁.heap.get s₁.stacknxt.block = some b₂ := by
        rw [h₁.regs.block, hb₂]
      rw [Program.wp_bind]
      refine (wp_store (b := b₂) ?_ ?_).mpr ?_
      · exact hb₂'
      · rw [hlength]
        omega
      rw [Program.wp_modify]
      have hput := h₁.put (h₁.free h₁.regs.block (Nat.le_refl _)) hb₂' old
      have hnleft : s₁.stacknleft - newlen + newlen = s₁.stacknleft := by omega
      dsimp only
      rw [hnleft]
      refine ⟨⟨_, hput⟩, by omega, by omega, hroom₁.expdest, fun w hw => ?_⟩
      have hwlength := hw.length
      refine ⟨?_, b₂.put s₁.stacknxt.off old, ?_, fun i hi => ?_⟩
      · dsimp only
        omega
      · dsimp only
        rw [← h₁.regs.block, Table.get_set_self]
      · obtain ⟨b₀, hb₀, hbytes⟩ := hw.bytes
        obtain rfl : b₀ = b := by
          rw [hb, Option.some_inj] at hb₀
          exact hb₀.symm
        have hi' : i < old.length := by omega
        rw [Block.put_bytes_of_mem hi', hold i hi']
        exact hbytes i hi
    · exact fun _ _ hfails => hfails

theorem wp_ptrdiff {p q : Ptr} {n : ℕ} (h : p = q.add n) {Q : ℕ → Memstack → Prop}
    {E : Stop → Memstack → Prop} : (ptrdiff p q).wp Q E s ↔ Q n s := by
  subst h
  have hin : (q.add n).block = q.block ∧ q.off ≤ (q.add n).off := ⟨rfl, Nat.le_add_right _ _⟩
  have hdiff : (q.add n).off - q.off = n := Nat.add_sub_cancel_left ..
  rw [ptrdiff, if_pos hin, hdiff, Program.wp_pure]

theorem wp_growstackto (m : Malloc) (hP : P.Anchored) (h : Within P s) {w : Bytes} (hw : Holds s w)
    (len : ℕ) :
    (growstackto m len).wp
      (fun q s' => Within P s' ∧ Holds s' w ∧ q = s'.stacknxt ∧ len ≤ s'.stacknleft ∧
        s'.expdest = s.expdest)
      (Fails P) s := by
  obtain ⟨extra, h⟩ := h
  rw [growstackto, Program.wp_bind, Program.wp_read]
  split_ifs with hlt
  · rw [Program.wp_bind]
    apply Program.wp_mono (wp_growstackblock m hP h len)
    · rintro _ s' ⟨hwithin, -, hle, hexpdest, hholds⟩
      exact ⟨hwithin, hholds w hw, rfl, hle, hexpdest⟩
    · exact fun _ _ hfails => hfails
  · exact ⟨⟨extra, h⟩, hw, rfl, Nat.le_of_not_lt hlt, rfl⟩

theorem wp_makestrspace (m : Malloc) (hP : P.Anchored) (h : Within P s) {w : Bytes}
    (hw : Holds s w) {p : Ptr} (hp : p = s.stacknxt.add w.length) (newlen : ℕ) :
    (makestrspace m newlen p).wp
      (fun q s' => Within P s' ∧ Holds s' w ∧ q = s'.stacknxt.add w.length ∧
        w.length + newlen ≤ s'.stacknleft ∧ s'.expdest = s.expdest)
      (Fails P) s := by
  rw [makestrspace, Program.wp_bind, Program.wp_read, Program.wp_bind, wp_ptrdiff hp,
    Program.wp_bind]
  apply Program.wp_mono (wp_growstackto m hP h hw (w.length + newlen))
  · rintro q s' ⟨hwithin, hholds, rfl, hle, hexpdest⟩
    exact ⟨hwithin, hholds, rfl, hle, hexpdest⟩
  · exact fun _ _ hfails => hfails

/-- **Writing at the end of a string** with room for it. -/
theorem wp_append (h : Within P s) {w : Bytes} (hw : Holds s w) {bs : Bytes}
    (hroom : w.length + bs.length ≤ s.stacknleft) {p : Ptr} (hp : p = s.stacknxt.add w.length)
    {E : Stop → Memstack → Prop} :
    (store p bs).wp
      (fun _ s' => Within P s' ∧ Holds s' (w ++ bs) ∧ s'.stacknxt = s.stacknxt ∧
        s'.expdest = s.expdest)
      E s := by
  obtain ⟨extra, h⟩ := h
  obtain ⟨b, hb, hsize⟩ := h.regs.room
  obtain ⟨b', hb', hbytes⟩ := hw.bytes
  obtain rfl : b' = b := by
    rw [hb, Option.some_inj] at hb'
    exact hb'.symm
  subst hp
  have hblock : (s.stacknxt.add w.length).block = s.stackp := h.regs.block
  have hbp : s.heap.get (s.stacknxt.add w.length).block = some b' := by rw [hblock, hb]
  have hfits : (s.stacknxt.add w.length).off + bs.length ≤ b'.size := by
    dsimp only [Ptr.add]
    omega
  rw [wp_store hbp hfits]
  have hput := h.put (h.free hblock (Nat.le_add_right _ _)) hbp bs
  refine ⟨⟨extra, hput⟩, ⟨?_, b'.put (s.stacknxt.off + w.length) bs, ?_, fun i hi => ?_⟩, rfl, rfl⟩
  · rw [List.length_append]
    exact hroom
  · dsimp only
    rw [hblock, Table.get_set_self]
    rfl
  · dsimp only
    rw [List.getElem_append]
    split_ifs with hlt
    · rw [Block.put_bytes_of_lt (Nat.add_lt_add_left hlt _)]
      exact hbytes i hlt
    · have hle : w.length ≤ i := Nat.le_of_not_lt hlt
      have hi' : i - w.length < bs.length := by
        rw [List.length_append] at hi
        omega
      rw [← @Block.put_bytes_of_mem b' (s.stacknxt.off + w.length) _ _ hi']
      congr 1
      omega

/-- A word is being built: it ends at `expdest`. -/
structure Building (s : Memstack) (w : Bytes) : Prop where
  holds : Holds s w
  expdest : s.expdest = some (s.stacknxt.add w.length)

theorem wp_getExpdest {w : Bytes} (h : Building s w) {Q : Ptr → Memstack → Prop}
    {E : Stop → Memstack → Prop} : getExpdest.wp Q E s ↔ Q (s.stacknxt.add w.length) s := by
  rw [getExpdest, Program.wp_bind, Program.wp_read, h.expdest]
  rfl

/-- The end of the string is noted. -/
theorem Building.set {w : Bytes} (h : Holds s w) {p : Ptr} (hp : p = s.stacknxt.add w.length) :
    Building { s with expdest := some p } w := ⟨⟨h.length, h.bytes⟩, congrArg some hp⟩

theorem Within.setExpdest (h : Within P s) (p : Option Ptr) :
    Within P { s with expdest := p } := by
  obtain ⟨extra, h⟩ := h
  exact ⟨extra, h.setExpdest p⟩

/-- A program that appends some bytes to the word. -/
def Appends (m : Ar Unit) (v : Bytes) : Prop :=
  ∀ (P : Protected) (s : Memstack) (w : Bytes), P.Anchored → Within P s → Building s w →
    m.wp (fun _ s' => Within P s' ∧ Building s' (w ++ v)) (Fails P) s

theorem appends_stnputs (m : Malloc) (str : Bytes) :
    Appends (do
      let p ← getExpdest
      let q ← stnputs m str p
      setExpdest q) str := by
  intro P s w hP h hbuild
  rw [Program.wp_bind, wp_getExpdest hbuild, Program.wp_bind, stnputs, Program.wp_bind]
  apply Program.wp_mono (wp_makestrspace m hP h hbuild.holds rfl str.length)
  · rintro q s₁ ⟨h₁, hholds₁, rfl, hroom, -⟩
    rw [Program.wp_bind]
    apply Program.wp_mono (wp_append h₁ hholds₁ hroom rfl)
    · rintro _ s₂ ⟨h₂, hholds₂, hnxt, -⟩
      rw [Program.wp_pure, setExpdest, Program.wp_modify]
      refine ⟨h₂.setExpdest _, Building.set hholds₂ ?_⟩
      rw [hnxt, List.length_append, Ptr.add, Ptr.add, Ptr.add, Nat.add_assoc]
    · exact fun _ _ hfails => hfails
  · exact fun _ _ hfails => hfails

theorem appends_stputc (m : Malloc) (c : UInt8) :
    Appends (do
      let p ← getExpdest
      let q ← stputc m c p
      setExpdest q) [c] := by
  intro P s w hP h hbuild
  -- the end of the block is where the string is grown
  have hspace : Program.wp
      (do
        let s ← Program.read
        if s.stacknxt.add w.length = s.sstrend then growstackstr m
          else pure (s.stacknxt.add w.length))
      (fun q s' => Within P s' ∧ Holds s' w ∧ q = s'.stacknxt.add w.length ∧
        w.length + 1 ≤ s'.stacknleft) (Fails P) s := by
    obtain ⟨extra, h⟩ := h
    rw [Program.wp_bind, Program.wp_read]
    have hend : s.stacknxt.add w.length = s.sstrend ↔ w.length = s.stacknleft := by
      rw [h.regs.strend, Ptr.add, Ptr.add, Ptr.mk.injEq]
      omega
    split_ifs with hfull
    · rw [growstackstr, Program.wp_bind, Program.wp_read, Program.wp_bind]
      apply Program.wp_mono (wp_growstackblock m hP h 0)
      · rintro _ s' ⟨hwithin, hlt, -, -, hholds⟩
        have hlength := hend.mp hfull
        refine ⟨hwithin, hholds w hbuild.holds, ?_, ?_⟩
        · rw [hlength]
        · rw [hlength]
          exact hlt
      · exact fun _ _ hfails => hfails
    · have hle := hbuild.holds.length
      have hne : w.length ≠ s.stacknleft := fun heq => hfull (hend.mpr heq)
      exact ⟨⟨extra, h⟩, hbuild.holds, rfl, Nat.lt_of_le_of_ne hle hne⟩
  rw [Program.wp_bind, wp_getExpdest hbuild, Program.wp_bind, stputc]
  rw [Program.wp_bind, Program.wp_read] at hspace ⊢
  rw [Program.wp_bind]
  apply Program.wp_mono hspace
  · rintro q s₁ ⟨h₁, hholds₁, rfl, hroom⟩
    rw [Program.wp_bind]
    have hone : w.length + [c].length ≤ s₁.stacknleft := hroom
    apply Program.wp_mono (wp_append h₁ hholds₁ hone rfl)
    · rintro _ s₂ ⟨h₂, hholds₂, hnxt, -⟩
      rw [Program.wp_pure, setExpdest, Program.wp_modify]
      refine ⟨h₂.setExpdest _, Building.set hholds₂ ?_⟩
      rw [hnxt, List.length_append, Ptr.add, Ptr.add, Ptr.add, Nat.add_assoc]
      rfl
    · exact fun _ _ hfails => hfails
  · exact fun _ _ hfails => hfails

theorem length_escaped_le (esc : UInt8 → Bool) (bs : Bytes) :
    (escaped esc bs).length ≤ bs.length * 2 := by
  induction bs with
  | nil => exact Nat.le_refl 0
  | cons c bs ih =>
    rw [escaped, List.flatMap_cons, List.length_append, List.length_cons]
    have hone : (if c = 0 then ([] : Bytes) else if esc c then [ctlesc, c] else [c]).length ≤ 2 := by
      split_ifs
      · exact Nat.zero_le 2
      · exact Nat.le_refl 2
      · exact Nat.le_succ 1
    rw [escaped] at ih
    omega

/-- **The room asked for is enough**, whatever is escaped. -/
theorem appends_memtodest (m : Malloc) (esc : UInt8 → Bool) (bs : Bytes) :
    Appends (memtodest m esc bs) (escaped esc bs) := by
  intro P s w hP h hbuild
  rw [memtodest]
  split_ifs with hnil
  · rw [hnil]
    refine ⟨h, ?_⟩
    rw [escaped, List.flatMap_nil, List.append_nil]
    exact hbuild
  · rw [Program.wp_bind, wp_getExpdest hbuild, Program.wp_bind]
    apply Program.wp_mono (wp_makestrspace m hP h hbuild.holds rfl (bs.length * 2))
    · rintro q s₁ ⟨h₁, hholds₁, rfl, hroom, -⟩
      have hle := length_escaped_le esc bs
      rw [Program.wp_bind]
      apply Program.wp_mono (wp_append h₁ hholds₁ (by omega) rfl)
      · rintro _ s₂ ⟨h₂, hholds₂, hnxt, -⟩
        rw [setExpdest, Program.wp_modify]
        refine ⟨h₂.setExpdest _, Building.set hholds₂ ?_⟩
        rw [hnxt, List.length_append, Ptr.add, Ptr.add, Ptr.add, Nat.add_assoc]
      · exact fun _ _ hfails => hfails
    · exact fun _ _ hfails => hfails

end

/-! ## Marks -/

/-- A state as something to be protected, with its chain. -/
def protect (s : Memstack) (c : List ℕ) : Protected := ⟨s.heap.get, c, s.stacknxt.off⟩

section

variable {P : Protected} {extra : List ℕ} {s : Memstack}

theorem Over.head (h : Over P extra s) : (extra ++ P.chain).head? = some s.stackp :=
  h.chain.head.symm

theorem Over.protected (h : Over P extra s) : Over (protect s (extra ++ P.chain)) [] s where
  chain := h.chain
  nodup := h.nodup
  fresh _ ha := absurd ha List.not_mem_nil
  kept _ _ _ := rfl
  top t ht := by
    obtain ⟨b, hb, -⟩ := h.regs.room
    obtain rfl : s.stackp = t := Option.some.inj (h.head.symm.trans ht)
    exact ⟨b, b, hb, hb, rfl, rfl, fun _ _ => rfl⟩
  low _ := Nat.le_refl _
  regs := h.regs

/-- Past the start of a block, the block stays where it is. -/
theorem Over.anchored (h : Over P extra s) (hP : P.Anchored)
    (hnxt : 0 < s.stacknxt.off ∨ s.stackp = stackbase) :
    (protect s (extra ++ P.chain)).Anchored where
  base := h.base_live hP
  fixed t ht := by
    obtain rfl : s.stackp = t := Option.some.inj (h.head.symm.trans ht)
    exact hnxt

/-- **One run on top of another.** -/
theorem Over.trans {extra' : List ℕ} {s' : Memstack} (h : Over P extra s)
    (h' : Over (protect s (extra ++ P.chain)) extra' s') : Over P (extra' ++ extra) s' where
  chain := by
    rw [List.append_assoc]
    exact h'.chain
  nodup := by
    rw [List.append_assoc]
    exact h'.nodup
  fresh a ha := by
    rcases List.mem_append.mp ha with ha | ha
    · exact (h.new (h'.fresh a ha)).2
    · exact h.fresh a ha
  kept a ha htop := by
    rw [List.mem_append, not_or] at ha
    rw [h'.kept a ha.1]
    · exact h.kept a ha.2 htop
    intro hhead
    cases extra with
    | nil => exact htop hhead
    | cons e rest =>
      cases hhead
      exact ha.2 List.mem_cons_self
  top t ht := by
    obtain ⟨b, b', hb, hb', hagrees⟩ := h.top t ht
    have hnotMem : t ∉ extra' := by
      intro hmem
      have hdisjoint := (List.nodup_append.mp h'.nodup).2.2 t hmem t
        (List.mem_append_right _ (List.mem_of_mem_head? ht))
      exact hdisjoint rfl
    cases hextra : extra with
    | nil =>
      -- the first of the old blocks is the current one, which is kept further up
      subst hextra
      obtain ⟨b₁, b₂, hb₁, hb₂, hagrees'⟩ := h'.top t ht
      obtain rfl : b' = b₁ := Option.some.inj (hb'.symm.trans hb₁)
      refine ⟨b, b₂, hb, hb₂, hagrees'.prev.trans hagrees.prev, hagrees'.size.trans hagrees.size,
        fun i hi => ?_⟩
      rw [hagrees'.bytes i (Nat.lt_of_lt_of_le hi (h.low rfl)), hagrees.bytes i hi]
    | cons e rest =>
      refine ⟨b, b', hb, ?_, hagrees⟩
      rw [h'.kept t hnotMem]
      · exact hb'
      · intro hhead
        rw [protect, hextra] at hhead
        cases hhead
        have hdisjoint := (List.nodup_append.mp h.nodup).2.2 t (by rw [hextra]; exact List.mem_cons_self)
          t (List.mem_of_mem_head? ht)
        exact hdisjoint rfl
  low heq := by
    obtain ⟨hextra', hextra⟩ := List.append_eq_nil_iff.mp heq
    exact (h.low hextra).trans (h'.low hextra')
  regs := h'.regs

/-- The stack is back where it was, and its blocks hold what they held. -/
structure Restored (floor : ℕ) (s s' : Memstack) : Prop where
  stackp : s'.stackp = s.stackp
  stacknxt : s'.stacknxt = s.stacknxt
  stacknleft : s'.stacknleft = s.stacknleft
  sstrend : s'.sstrend = s.sstrend
  heap : ∀ a, a ≠ s.stackp → s'.heap.get a = s.heap.get a
  top : ∃ b b', s.heap.get s.stackp = some b ∧ s'.heap.get s.stackp = some b' ∧ b.Agrees floor b'

theorem Over.restored (h : Over P extra s) {floor : ℕ} {s' : Memstack} (hs : Restored floor s s')
    (hfloor : s.stacknxt.off ≤ floor) : Over P extra s' := by
  have htop : Over (protect s (extra ++ P.chain)) [] s' := by
    obtain ⟨b, b', hb, hb', hagrees⟩ := hs.top
    constructor
    · rw [hs.stackp]
      apply h.chain.congr
      intro a _
      by_cases heq : a = s.stackp
      · rw [heq, hb, hb', Option.map_some, Option.map_some, hagrees.prev]
      · rw [hs.heap a heq]
    · exact h.nodup
    · exact fun _ ha => absurd ha List.not_mem_nil
    · intro a _ hhead
      apply hs.heap a
      rintro rfl
      exact hhead h.head
    · intro t ht
      obtain rfl : s.stackp = t := Option.some.inj (h.head.symm.trans ht)
      exact ⟨b, b', hb, hb', hagrees.prev, hagrees.size, fun i hi =>
        hagrees.bytes i (Nat.lt_of_lt_of_le hi hfloor)⟩
    · intro _
      rw [hs.stacknxt]
      exact Nat.le_refl _
    · obtain ⟨b₀, hb₀, hroom⟩ := h.regs.room
      obtain rfl : b = b₀ := Option.some.inj (hb.symm.trans hb₀)
      refine ⟨?_, ⟨b', ?_, ?_⟩, ?_, ?_, ?_⟩
      · rw [hs.stacknxt, hs.stackp, h.regs.block]
      · rw [hs.stackp, hb']
      · rw [hs.stacknxt, hs.stacknleft, hagrees.size, hroom]
      · rw [hs.sstrend, hs.stacknxt, hs.stacknleft, h.regs.strend]
      · rw [hs.stacknleft]
        exact h.regs.aligned
      · rw [hs.stacknxt, hs.stacknleft]
        exact h.regs.pos
  exact h.trans htop

/-- A string that is kept whole survives. -/
theorem Restored.holds {floor : ℕ} {s' : Memstack} (h : Restored floor s s') {w : Bytes}
    (hw : Holds s w) (hfloor : s.stacknxt.off + w.length ≤ floor) : Holds s' w := by
  obtain ⟨b, b', hb, hb', hagrees⟩ := h.top
  obtain ⟨b₀, hb₀, hbytes⟩ := hw.bytes
  obtain rfl : b = b₀ := Option.some.inj (hb.symm.trans hb₀)
  refine ⟨?_, b', ?_, fun i hi => ?_⟩
  · rw [h.stacknleft]
    exact hw.length
  · rw [h.stackp, hb']
  · rw [h.stacknxt, hagrees.bytes _ (by omega)]
    exact hbytes i hi

/-- A state with some more of the block taken. -/
def Memstack.taken (s : Memstack) (n : ℕ) : Memstack :=
  { s with stacknxt := s.stacknxt.add n, stacknleft := s.stacknleft - n }

/-- **Popping a mark**: the blocks allocated since are freed, no others, and the mark is found. -/
theorem wp_popstackmark (hP : P.Anchored) (h : Over P extra s) {n : ℕ} {extra' : List ℕ}
    {s' : Memstack} (h' : Over (protect (s.taken n) (extra ++ P.chain)) extra' s') :
    (popstackmark ⟨s.stackp, s.stacknxt, s.stacknleft⟩).wp
      (fun _ s'' => Restored (s.stacknxt.off + n) s s'' ∧ s''.expdest = s'.expdest)
      (fun _ _ => False) s' := by
  have hhead := h.head
  obtain ⟨rest, hc⟩ : ∃ rest, extra ++ P.chain = s.stackp :: rest := by
    cases hc : extra ++ P.chain with
    | nil =>
      rw [hc] at hhead
      cases hhead
    | cons a rest =>
      rw [hc] at hhead
      cases hhead
      exact ⟨rest, rfl⟩
  have hchain := h'.chain
  rw [linked_append] at hchain
  obtain ⟨mid, hlinked, hlower⟩ := hchain
  obtain rfl : mid = some s.stackp := by
    rw [hlower.head]
    exact hhead
  obtain ⟨hnodup, -, hdisjoint⟩ := List.nodup_append.mp h'.nodup
  have hstackp : s.stackp ∉ extra' := by
    intro hmem
    apply hdisjoint s.stackp hmem s.stackp _ rfl
    rw [protect, hc]
    exact List.mem_cons_self
  have hbase : stackbase ∉ extra' := fun hmem =>
    h.base_live hP (h'.fresh stackbase hmem)
  have huntil : ∀ a ∈ extra', some s.stackp ≠ some a := by
    rintro a ha heq
    exact hstackp (Option.some.inj heq ▸ ha)
  rw [popstackmark, Program.wp_bind, Program.wp_read, Program.wp_bind]
  apply Program.wp_mono (wp_freeBlocks hlinked hnodup hbase huntil (hlinked.length_le hnodup))
  · rintro _ s'' ⟨heap, rfl, hheap⟩
    rw [Program.wp_modify]
    refine ⟨⟨rfl, rfl, rfl, h.regs.strend.symm, ?_, ?_⟩, rfl⟩
    · intro a ha
      dsimp only
      rw [hheap]
      dsimp only
      split_ifs with hmem
      · exact (h'.fresh a hmem).symm
      · apply h'.kept a hmem
        rw [protect, hhead]
        exact fun heq => ha (Option.some.inj heq).symm
    · obtain ⟨b, b', hb, hb', hagrees⟩ := h'.top s.stackp hhead
      refine ⟨b, b', hb, ?_, hagrees⟩
      dsimp only
      rw [hheap]
      dsimp only
      rw [if_neg hstackp, hb']
  · exact fun _ _ hfalse => hfalse

/-- **Setting a mark**: the block it is in will not be moved. -/
theorem wp_setstackmark (m : Malloc) (h : Over P extra s) :
    (setstackmark m).wp
      (fun smark s₁ => smark = ⟨s.stackp, s.stacknxt, s.stacknleft⟩ ∧ ∃ n, 8 ∣ n ∧
        n ≤ s.stacknleft ∧ s₁ = s.taken n ∧
        (0 < s₁.stacknxt.off ∨ s.stackp = stackbase))
      (fun _ _ => False) s := by
  rw [setstackmark, Program.wp_bind, Program.wp_read, pushstackmark, Program.wp_bind,
    Program.wp_read, Program.wp_bind]
  have hpos := h.regs.pos
  by_cases hstart : s.stacknxt = ⟨s.stackp, 0⟩ ∧ s.stackp ≠ stackbase
  · rw [if_pos hstart]
    have hleft : 1 ≤ s.stacknleft := by
      rw [hstart.1] at hpos
      dsimp only at hpos
      omega
    have hroom := shellAlign_le hleft h.regs.aligned
    rw [Program.wp_of_ok (stalloc_of_room m hroom), Program.wp_pure]
    refine ⟨rfl, _, shellAlign_dvd 1, hroom, rfl, Or.inl ?_⟩
    exact Nat.lt_of_lt_of_le (by decide : 0 < shellAlign 1) (Nat.le_add_left _ _)
  · rw [if_neg hstart]
    have hroom : shellAlign 0 ≤ s.stacknleft := Nat.zero_le _
    rw [Program.wp_of_ok (stalloc_of_room m hroom), Program.wp_pure]
    refine ⟨rfl, _, shellAlign_dvd 0, hroom, rfl, ?_⟩
    rw [not_and_or, not_ne_iff] at hstart
    rcases hstart with hnxt | hbase
    · left
      apply Nat.pos_of_ne_zero
      intro hzero
      apply hnxt
      rw [← h.regs.block]
      have hoff : s.stacknxt.off = 0 := hzero
      rw [← hoff]
    · exact Or.inr hbase

end

/-! ## What acts keep -/

/-- A program that is never undefined, and keeps what is below it. -/
def Safe (m : Ar Unit) : Prop := ∀ (P : Protected) (s : Memstack), P.Anchored → Within P s →
  m.wp (fun _ s' => Within P s') (Fails P) s

theorem safe_pure : Safe (pure ()) := fun _ _ _ h => h

theorem Safe.bind {m : Ar Unit} {f : Unit → Ar Unit} (hm : Safe m) (hf : ∀ a, Safe (f a)) :
    Safe (m >>= f) := by
  intro P s hP h
  rw [Program.wp_bind]
  apply Program.wp_mono (hm P s hP h)
  · exact fun a s' h' => hf a P s' hP h'
  · exact fun _ _ hfails => hfails

theorem wp_catching {body : Ar Unit} {Q : Option Stop → Memstack → Prop}
    {E : Stop → Memstack → Prop} {s : Memstack} :
    (catching body).wp Q E s ↔ body.wp (fun _ => Q none) (fun
      | .raised => Q (some .raised)
      | stop => E stop) s := by
  rw [Program.wp, catching, Program.wp]
  rcases body s with ⟨(_ | _ | _) | a, s'⟩
  · rfl
  · rfl
  · rfl
  · rfl

/-- A caught exception leaves what an exception leaves. -/
theorem Safe.catching {body : Ar Unit} (h : Safe body) {P : Protected} {s : Memstack}
    (hP : P.Anchored) (hs : Within P s) :
    (catching body).wp (fun r s' => Within P s' ∧ (r = none ∨ r = some .raised))
      (fun stop _ => stop = .died) s := by
  rw [wp_catching]
  apply Program.wp_mono (h P s hP hs)
  · exact fun _ _ h' => ⟨h', Or.inl rfl⟩
  · intro stop s' h'
    cases stop with
    | raised => exact ⟨h', Or.inr rfl⟩
    | undefined => exact h'.elim
    | died => rfl

section

variable {P : Protected} {extra : List ℕ} {s : Memstack}

/-- **Between a mark and its pop** anything safe may run, and the stack comes back as it was. -/
theorem wp_withStackmark (m : Malloc) (hP : P.Anchored) (h : Over P extra s) {body : Ar Unit}
    (hbody : ∀ (Q : Protected) (t : Memstack), Q.Anchored → Over Q [] t →
      body.wp (fun _ t' => Within Q t') (Fails Q) t) :
    (withStackmark m body).wp (fun _ s' => Restored s.stacknxt.off s s') (Fails P) s := by
  rw [withStackmark, Program.wp_bind]
  apply Program.wp_mono (wp_setstackmark m h)
  · rintro _ s₁ ⟨rfl, n, hdvd, hle, rfl, hfixed⟩
    have htaken : Over P extra (s.taken n) := h.take hdvd hle
    rw [Program.wp_bind]
    apply Program.wp_mono (hbody _ _ (htaken.anchored hP hfixed) htaken.protected)
    · rintro _ s₂ ⟨extra', h₂⟩
      apply Program.wp_mono (wp_popstackmark hP h h₂)
      · rintro _ s₃ ⟨hrestored, -⟩
        obtain ⟨b, b', hb, hb', hagrees⟩ := hrestored.top
        refine { hrestored with top := ⟨b, b', hb, hb', hagrees.prev, hagrees.size, fun i hi => ?_⟩ }
        exact hagrees.bytes i (Nat.lt_of_lt_of_le hi (Nat.le_add_right _ n))
      · exact fun _ _ hfalse => hfalse.elim
    · intro stop s₂ h₂
      cases stop with
      | raised =>
        obtain ⟨extra', h₂⟩ := h₂
        exact ⟨_, htaken.trans h₂⟩
      | undefined => exact h₂
      | died => trivial
  · exact fun _ _ hfalse => hfalse.elim

theorem Safe.withStackmark (m : Malloc) {body : Ar Unit} (hbody : Safe body) :
    Safe (withStackmark m body) := by
  rintro P s hP ⟨extra, h⟩
  apply Program.wp_mono (wp_withStackmark m hP h fun Q t hQ ht => hbody Q t hQ ⟨[], ht⟩)
  · exact fun _ s' hrestored => ⟨extra, h.restored hrestored (Nat.le_refl _)⟩
  · exact fun _ _ hfails => hfails

/-- **A substitution on a stack of its own**: however the tree ends, the heap and the registers are
exactly as before. -/
theorem wp_osdEvalbackcmdInproc (m : Malloc) (hP : P.Anchored) (h : Over P extra s)
    {n : Ar Unit} (hn : Safe n) :
    (osdEvalbackcmdInproc m n).wp
      (fun _ s' => ∃ heap : Heap, s' = { s with heap := heap } ∧ heap.get = s.heap.get)
      (fun stop _ => stop = .died) s := by
  rw [osdEvalbackcmdInproc, Program.wp_bind, Program.wp_read]
  cases hmalloc : m.malloc s.heap (header + minsize) with
  | none => rfl
  | some nb =>
    have hfree := m.malloc_free hmalloc
    dsimp only
    rw [Program.wp_bind, Program.wp_modify, Program.wp_bind]
    -- nothing of the old stack is on the new one
    let N : Protected := ⟨s.heap.get, [], 0⟩
    have hN : N.Anchored := ⟨h.base_live hP, fun _ ht => (nomatch ht)⟩
    have hstart : Over N [nb]
        { heap := s.heap.set nb (some ⟨none, minsize, m.junk⟩), stackp := nb, stacknxt := ⟨nb, 0⟩,
          stacknleft := minsize, sstrend := ⟨nb, minsize⟩, expdest := none } := by
      constructor
      · exact ⟨rfl, _, Table.get_set_self _ _ _, rfl⟩
      · exact List.nodup_singleton nb
      · intro a ha
        rw [List.mem_singleton] at ha
        rw [ha]
        exact hfree
      · intro a ha _
        apply Table.get_set_of_ne
        rintro rfl
        exact ha List.mem_cons_self
      · exact fun _ ht => (nomatch ht)
      · exact fun heq => (nomatch heq)
      · refine ⟨rfl, ⟨_, Table.get_set_self _ _ _, Nat.zero_add _⟩, ?_, ?_, ?_⟩
        · rw [Ptr.add, Nat.zero_add]
        · exact shellAlign_dvd 504
        · exact (by decide : 0 < 0 + minsize)
    apply Program.wp_mono (hn.catching hN ⟨_, hstart⟩)
    · rintro r s₁ ⟨⟨extra₁, h₁⟩, -⟩
      rw [Program.wp_bind, Program.wp_read, Program.wp_bind]
      have hchain : Linked s₁.heap.get none (some s₁.stackp) extra₁ := by
        rw [← List.append_nil extra₁]
        exact h₁.chain
      have hnodup : extra₁.Nodup := by
        rw [← List.append_nil extra₁]
        exact h₁.nodup
      apply Program.wp_mono (wp_freeBlocks hchain hnodup (h₁.base_notMem hN)
        (fun a _ heq => (nomatch heq)) (hchain.length_le hnodup))
      · rintro _ s₂ ⟨heap, rfl, hheap⟩
        rw [Program.wp_modify]
        refine ⟨heap, rfl, ?_⟩
        rw [hheap]
        funext a
        split_ifs with hmem
        · exact (h₁.fresh a hmem).symm
        · exact h₁.kept a hmem (fun ht => (nomatch ht))
      · exact fun _ _ hfalse => hfalse.elim
    · exact fun _ _ hdied => hdied

theorem restored_of_heap {heap : Heap} (h : Over P extra s) (hheap : heap.get = s.heap.get)
    (floor : ℕ) : Restored floor s { s with heap := heap } := by
  obtain ⟨b, hb, -⟩ := h.regs.room
  refine ⟨rfl, rfl, rfl, rfl, fun a _ => congrFun hheap a, b, b, hb, ?_, rfl, rfl, fun _ _ => rfl⟩
  exact (congrFun hheap s.stackp).trans hb

end

/-! ## Parts of a word -/

section

variable {P : Protected} {extra : List ℕ} {s : Memstack}

theorem Holds.take {w v : Bytes} (h : Holds s (w ++ v)) : Holds s w := by
  obtain ⟨b, hb, hbytes⟩ := h.bytes
  have hlength := h.length
  rw [List.length_append] at hlength
  refine ⟨Nat.le_of_add_right_le hlength, b, hb, fun i hi => ?_⟩
  have hi' : i < (w ++ v).length := by
    rw [List.length_append]
    exact Nat.lt_of_lt_of_le hi (Nat.le_add_right _ _)
  rw [hbytes i hi', List.getElem_append_left hi]

/-- A string in the block fits into what is taken for it. -/
theorem Over.fits (h : Over P extra s) {w : Bytes} (hw : Holds s w) :
    shellAlign w.length ≤ s.stacknleft := shellAlign_le hw.length h.regs.aligned

/-- **Arithmetic** puts the number in the place of the expression. -/
theorem appends_expari (m : Malloc) (esc : UInt8 → Bool) {expr : Ar Unit} {v : Bytes}
    (hexpr : Appends expr v) (result : Option Bytes) :
    Appends (expari m esc expr result) (escaped esc (result.getD [])) := by
  intro P s w hP h hbuild
  rw [expari, Program.wp_bind, wp_getExpdest hbuild, Program.wp_bind, Program.wp_read,
    Program.wp_bind, wp_ptrdiff rfl, Program.wp_bind]
  apply Program.wp_mono (hexpr P s w hP h hbuild)
  · rintro _ s₁ ⟨⟨extra₁, h₁⟩, hbuild₁⟩
    rw [Program.wp_bind, wp_getExpdest hbuild₁, Program.wp_bind, Program.wp_read, Program.wp_bind,
      wp_ptrdiff rfl, Program.wp_bind, setExpdest, Program.wp_modify, Program.wp_bind,
      pushstackmark, Program.wp_bind, Program.wp_read, Program.wp_bind]
    have hfits := h₁.fits hbuild₁.holds
    have h₂ := h₁.setExpdest (some (s₁.stacknxt.add w.length))
    rw [Program.wp_of_ok (stalloc_of_room m (s := { s₁ with
      expdest := some (s₁.stacknxt.add w.length) }) hfits), Program.wp_pure]
    have htaken := h₂.take (shellAlign_dvd (w ++ v).length) hfits
    cases result with
    | none => exact ⟨extra₁, htaken⟩
    | some bs =>
      -- the mark is popped at once: what was taken is still there
      dsimp only
      rw [Program.wp_bind]
      apply Program.wp_mono (wp_popstackmark hP h₂ (n := shellAlign (w ++ v).length)
        htaken.protected)
      · rintro _ s₃ ⟨hrestored, hexpdest⟩
        have hholds : Holds s₃ (w ++ v) := by
          apply hrestored.holds (w := w ++ v)
          · exact ⟨hbuild₁.holds.length, hbuild₁.holds.bytes⟩
          · exact Nat.add_le_add_left (le_shellAlign _) _
        have hbuild₃ : Building s₃ w := by
          refine ⟨hholds.take, ?_⟩
          rw [hexpdest, hrestored.stacknxt]
        have hwithin : Within P s₃ :=
          ⟨extra₁, h₂.restored hrestored (Nat.le_add_right _ _)⟩
        exact appends_memtodest m esc bs P s₃ w hP hwithin hbuild₃
      · exact fun _ _ hfalse => hfalse.elim
  · exact fun _ _ hfails => hfails

theorem appends_memtodests (m : Malloc) (esc : UInt8 → Bool) (l : List Bytes) :
    Appends (memtodests m esc l) (escaped esc l.flatten) := by
  induction l with
  | nil =>
    intro P s w _ h hbuild
    refine ⟨h, ?_⟩
    rw [List.flatten_nil, escaped, List.flatMap_nil, List.append_nil]
    exact hbuild
  | cons bs l ih =>
    intro P s w hP h hbuild
    rw [memtodests, Program.wp_bind]
    apply Program.wp_mono (appends_memtodest m esc bs P s w hP h hbuild)
    · rintro _ s₁ ⟨h₁, hbuild₁⟩
      apply Program.wp_mono (ih P s₁ _ hP h₁ hbuild₁)
      · rintro _ s₂ ⟨h₂, hbuild₂⟩
        refine ⟨h₂, ?_⟩
        rw [List.flatten_cons, escaped, List.flatMap_append, ← List.append_assoc]
        exact hbuild₂
      · exact fun _ _ hfails => hfails
    · exact fun _ _ hfails => hfails

/-- No byte of the output is lost between two pieces. -/
theorem flatten_pieces (bs : Bytes) : (pieces bs).flatten = bs := by
  have hfuel : ∀ (fuel : ℕ) (bs : Bytes), bs.length ≤ fuel → (piecesOf fuel bs).flatten = bs := by
    intro fuel
    induction fuel with
    | zero =>
      intro bs hle
      rw [List.eq_nil_of_length_eq_zero (Nat.le_zero.mp hle)]
      rfl
    | succ fuel ih =>
      intro bs hle
      rw [piecesOf]
      split_ifs with hnil
      · exact hnil.symm
      · have hpos : 0 < bs.length := List.length_pos_of_ne_nil hnil
        have hrest : (bs.drop 128).length ≤ fuel := by
          rw [List.length_drop]
          omega
        rw [List.flatten_cons, ih _ hrest, List.take_append_drop]
  exact hfuel bs.length bs (Nat.le_refl _)

/-- Without the newlines at the end. -/
def trimNewlines (bs : Bytes) : Bytes := (bs.reverse.dropWhile (· == 10)).reverse

theorem trimNewlines_prefix (bs : Bytes) : ∃ rest, bs = trimNewlines bs ++ rest := by
  refine ⟨(bs.reverse.takeWhile (· == 10)).reverse, ?_⟩
  rw [trimNewlines, ← List.reverse_append, List.takeWhile_append_dropWhile, List.reverse_reverse]

/-- The bytes before the end are looked at, no further than where the output begins. -/
theorem wp_eatNewlines {w v : Bytes} (hregs : Regs s) (h : Holds s (w ++ v)) {dest : Ptr}
    (hdest : dest = s.stacknxt.add (w ++ v).length) {Q : Ptr → Memstack → Prop}
    {E : Stop → Memstack → Prop} (hQ : Q (s.stacknxt.add (w ++ trimNewlines v).length) s) :
    (eatNewlines v.length dest).wp Q E s := by
  induction v using List.reverseRecOn generalizing dest with
  | nil =>
    rw [List.length_nil, eatNewlines, Program.wp_pure, hdest]
    exact hQ
  | append_singleton v c ih =>
    obtain ⟨b, hb, hroom⟩ := hregs.room
    obtain ⟨b₀, hb₀, hbytes⟩ := h.bytes
    obtain rfl : b = b₀ := Option.some.inj (hb.symm.trans hb₀)
    have hlength := h.length
    have hwhole : (w ++ (v ++ [c])).length = (w ++ v).length + 1 := by
      rw [← List.append_assoc, List.length_append, List.length_singleton]
    rw [hwhole] at hlength hdest
    have hlast : (⟨dest.block, dest.off - 1⟩ : Ptr) = s.stacknxt.add (w ++ v).length := by
      rw [hdest, Ptr.add, Ptr.add, ← Nat.add_assoc, Nat.add_sub_cancel]
    have hbyte : b.bytes (s.stacknxt.off + (w ++ v).length) = c := by
      rw [hbytes _ (by rw [hwhole]; exact Nat.lt_succ_self _)]
      have hget : (w ++ (v ++ [c]))[(w ++ v).length]? = some c := by
        rw [← List.append_assoc, List.getElem?_concat_length]
      exact Option.some.inj ((List.getElem?_eq_getElem _).symm.trans hget)
    rw [List.length_append, List.length_singleton, eatNewlines, Program.wp_bind, hlast]
    refine (wp_load (b := b) ?_ ?_).mpr ?_
    · exact (congrArg s.heap.get hregs.block).trans hb
    · dsimp only [Ptr.add]
      omega
    have hlist : (List.range 1).map (fun i => b.bytes ((s.stacknxt.add (w ++ v).length).off + i)) =
        [c] := by
      rw [List.range_one, List.map_singleton, Nat.add_zero]
      exact congrArg (fun c => [c]) hbyte
    rw [hlist]
    by_cases hc : c = 10
    · rw [hc, if_pos rfl]
      have htrim : trimNewlines (v ++ [c]) = trimNewlines v := by
        rw [trimNewlines, List.reverse_concat, hc]
        rfl
      rw [htrim] at hQ
      have hprefix : Holds s (w ++ v) := by
        rw [← List.append_assoc] at h
        exact h.take
      exact ih hprefix rfl hQ
    · rw [if_neg fun heq => hc (List.singleton_inj.mp heq), Program.wp_pure, hdest]
      have htrim : trimNewlines (v ++ [c]) = v ++ [c] := by
        rw [trimNewlines, List.reverse_concat, List.dropWhile_cons_of_neg, List.reverse_cons,
          List.reverse_reverse]
        exact fun htrue => hc (beq_iff_eq.mp htrue)
      rw [htrim, hwhole] at hQ
      exact hQ

/-- **A substitution in a word**: what has been built of the word is there afterwards, and the
output follows it. -/
theorem appends_expbackq (m : Malloc) (esc : UInt8 → Bool) {n : Ar Unit} (hn : Safe n)
    (output : Bytes) :
    Appends (expbackq m esc n output) (trimNewlines (escaped esc output)) := by
  rintro P s w hP ⟨extra, h⟩ hbuild
  have hfits := h.fits hbuild.holds
  have htaken := h.take (shellAlign_dvd w.length) hfits
  rw [expbackq, Program.wp_bind, wp_getExpdest hbuild, Program.wp_bind, Program.wp_read,
    Program.wp_bind, wp_ptrdiff rfl, Program.wp_bind, pushstackmark, Program.wp_bind,
    Program.wp_read, Program.wp_bind, Program.wp_of_ok (stalloc_of_room m hfits), Program.wp_pure,
    Program.wp_bind]
  apply Program.wp_mono (wp_osdEvalbackcmdInproc m hP htaken hn)
  · rintro _ s₁ ⟨heap, rfl, hheap⟩
    -- the stack is as the mark found it
    have h₁ : Over (protect (s.taken (shellAlign w.length)) (extra ++ P.chain)) []
        { s.taken (shellAlign w.length) with heap := heap } :=
      htaken.protected.restored (restored_of_heap htaken hheap _) (Nat.le_refl _)
    rw [Program.wp_bind]
    apply Program.wp_mono (wp_popstackmark hP h h₁)
    · rintro _ s₂ ⟨hrestored, hexpdest⟩
      have hholds : Holds s₂ w :=
        hrestored.holds hbuild.holds (Nat.add_le_add_left (le_shellAlign _) _)
      have hbuild₂ : Building s₂ w := by
        refine ⟨hholds, ?_⟩
        rw [hexpdest, hrestored.stacknxt]
        exact hbuild.expdest
      have h₂ : Within P s₂ := ⟨extra, h.restored hrestored (Nat.le_add_right _ _)⟩
      have hpieces := flatten_pieces output
      have happend := appends_memtodests m esc (pieces output) P s₂ w hP h₂ hbuild₂
      rw [hpieces] at happend
      rw [Program.wp_bind]
      apply Program.wp_mono happend
      · rintro _ s₃ ⟨⟨extra₃, h₃⟩, hbuild₃⟩
        rw [Program.wp_bind, wp_getExpdest hbuild₃, Program.wp_bind, Program.wp_read,
          Program.wp_bind, wp_ptrdiff rfl, Program.wp_bind, List.length_append,
          Nat.add_sub_cancel_left]
        apply wp_eatNewlines h₃.regs hbuild₃.holds (by rw [List.length_append])
        rw [setExpdest, Program.wp_modify]
        obtain ⟨rest, hrest⟩ := trimNewlines_prefix (escaped esc output)
        have hkept : Holds s₃ (w ++ trimNewlines (escaped esc output)) := by
          apply Holds.take (v := rest)
          rw [List.append_assoc, ← hrest]
          exact hbuild₃.holds
        exact ⟨Within.setExpdest ⟨extra₃, h₃⟩ _, Building.set hkept rfl⟩
      · exact fun _ _ hfails => hfails
    · exact fun _ _ hfalse => hfalse.elim
  · rintro stop s₁ rfl
    trivial

end

/-! ## Acts -/

section

variable {P : Protected} {extra : List ℕ} {s : Memstack}

theorem safe_stalloc (m : Malloc) (n : ℕ) :
    Safe (do
      let _ ← stalloc m n
      pure ()) := by
  rintro P s hP ⟨extra, h⟩
  rw [Program.wp_bind]
  apply Program.wp_mono (wp_stalloc m h n)
  · rintro _ s' ⟨s₁, extra₁, h₁, hroom, -, rfl⟩
    exact ⟨extra₁, h₁.taken hroom⟩
  · exact fun _ _ hfails => hfails

theorem safe_raise : Safe (Program.stop .raised) := fun _ _ _ h => h

theorem Safe.handler {body : Ar Unit} (h : Safe body) :
    Safe (do
      let _ ← Arena.catching body
      pure ()) := by
  intro P s hP hs
  rw [Program.wp_bind]
  apply Program.wp_mono (h.catching hP hs)
  · exact fun _ _ h' => h'.1
  · rintro stop s' rfl
    trivial

/-- A word begins with nothing. -/
theorem wp_startstackstr (h : Within P s) {E : Stop → Memstack → Prop} :
    startstackstr.wp (fun _ s' => Within P s' ∧ Building s' []) E s := by
  obtain ⟨extra, h⟩ := h
  rw [startstackstr, Program.wp_modify]
  exact ⟨⟨extra, h.setExpdest _⟩, Building.set (holds_nil h) rfl⟩

theorem Appends.safe_casematch (m : Malloc) {parts : Ar Unit} {v : Bytes} (hparts : Appends parts v) :
    Safe (casematch m parts) := by
  rw [casematch]
  apply Safe.withStackmark
  intro P s hP h
  rw [Program.wp_bind]
  apply Program.wp_mono (wp_startstackstr h)
  · rintro _ s₁ ⟨h₁, hbuild⟩
    apply Program.wp_mono (hparts P s₁ [] hP h₁ hbuild)
    · exact fun _ _ h' => h'.1
    · exact fun _ _ hfails => hfails
  · exact fun _ _ hfails => hfails

/-- A place in the current block that has been taken, with these bytes. -/
structure Owns (s : Memstack) (p : Ptr) (w : Bytes) : Prop where
  block : p.block = s.stackp
  below : p.off + w.length ≤ s.stacknxt.off
  bytes : ∃ b, s.heap.get s.stackp = some b ∧
    ∀ (i : ℕ) (hi : i < w.length), b.bytes (p.off + i) = w[i]

/-- **A word is what its parts are**, and it is taken from the stack. -/
theorem wp_expandarg (m : Malloc) (hP : P.Anchored) (h : Within P s) {parts : Ar Unit} {v : Bytes}
    (hparts : Appends parts v) :
    (expandarg m parts).wp (fun p s' => Within P s' ∧ Owns s' p v) (Fails P) s := by
  rw [expandarg, Program.wp_bind]
  apply Program.wp_mono (wp_startstackstr h)
  · rintro _ s₁ ⟨h₁, hbuild₁⟩
    rw [Program.wp_bind]
    apply Program.wp_mono (hparts P s₁ [] hP h₁ hbuild₁)
    · rintro _ s₂ ⟨⟨extra₂, h₂⟩, hbuild₂⟩
      rw [List.nil_append] at hbuild₂
      have hfits := h₂.fits hbuild₂.holds
      rw [Program.wp_bind, wp_getExpdest hbuild₂, grabstackstr, Program.wp_bind, Program.wp_read,
        Program.wp_bind, wp_ptrdiff rfl, Program.wp_of_ok (stalloc_of_room m hfits)]
      refine ⟨⟨extra₂, h₂.take (shellAlign_dvd _) hfits⟩, h₂.regs.block, ?_, hbuild₂.holds.bytes⟩
      exact Nat.add_le_add_left (le_shellAlign _) _
    · exact fun _ _ hfails => hfails
  · exact fun _ _ hfails => hfails

/-- All commands start at the mark. -/
theorem wp_evalCommands (hP : P.Anchored) (h : Over P extra s)
    (hfixed : 0 < s.stacknxt.off ∨ s.stackp = stackbase) {commands : List (Ar Unit)}
    (hsafe : ∀ command ∈ commands, Safe command) {t : Memstack}
    (ht : Within (protect s (extra ++ P.chain)) t) :
    (evalCommands ⟨s.stackp, s.stacknxt, s.stacknleft⟩ commands).wp
      (fun _ t' => Within (protect s (extra ++ P.chain)) t')
      (Fails (protect s (extra ++ P.chain))) t := by
  induction commands generalizing t with
  | nil => exact ht
  | cons command rest ih =>
    rw [evalCommands, Program.wp_bind]
    apply Program.wp_mono (hsafe command List.mem_cons_self _ t (h.anchored hP hfixed) ht)
    · rintro _ t₁ ⟨extra₁, ht₁⟩
      rw [Program.wp_bind]
      apply Program.wp_mono (wp_popstackmark hP h (n := 0) ht₁)
      · rintro _ t₂ ⟨hrestored, -⟩
        apply ih (fun c hc => hsafe c (List.mem_cons_of_mem command hc))
        exact ⟨[], h.protected.restored hrestored (Nat.le_refl _)⟩
      · exact fun _ _ hfalse => hfalse.elim
    · exact fun _ _ hfails => hfails

theorem setstackmark_of_fixed (m : Malloc) (hfixed : 0 < s.stacknxt.off ∨ s.stackp = stackbase) :
    setstackmark m s = (.ok ⟨s.stackp, s.stacknxt, s.stacknleft⟩, s) := by
  have hnot : ¬ (s.stacknxt = ⟨s.stackp, 0⟩ ∧ s.stackp ≠ stackbase) := by
    rintro ⟨hnxt, hbase⟩
    rcases hfixed with hpos | hstack
    · rw [hnxt] at hpos
      exact absurd hpos (Nat.lt_irrefl 0)
    · exact hbase hstack
  have hroom : shellAlign 0 ≤ s.stacknleft := Nat.zero_le _
  simp only [setstackmark, pushstackmark, Program.read_bind, if_neg hnot]
  rw [Program.bind_ok (stalloc_of_room m hroom)]
  rfl

/-- **The string of `eval`** is on the stack as long as its commands run, and is given back. -/
theorem safe_evalstring (m : Malloc) (str : Bytes) {commands : List (Ar Unit)}
    (hsafe : ∀ command ∈ commands, Safe command) : Safe (evalstring m str commands) := by
  rintro P s hP ⟨extra, h⟩
  rw [evalstring, Program.wp_bind, sstrdup, Program.wp_bind]
  apply Program.wp_mono (wp_stalloc m h (str.length + 1))
  · rintro p s' ⟨s₁, extra₁, h₁, hroom, rfl, rfl⟩
    obtain ⟨b, hb, hsize⟩ := h₁.regs.room
    have hfits := hroom.fits
    have htaken := h₁.taken hroom
    have halign := le_shellAlign (str.length + 1)
    rw [Program.wp_bind]
    refine (wp_store (b := b) ?_ ?_).mpr ?_
    · exact (congrArg s₁.heap.get h₁.regs.block).trans hb
    · rw [List.length_append, List.length_singleton]
      omega
    rw [Program.wp_pure]
    -- the state with the string on the stack
    have hput := htaken.put (p := s₁.stacknxt) (h₁.free h₁.regs.block (Nat.le_refl _))
      (b := b) ((congrArg s₁.heap.get h₁.regs.block).trans hb) (str ++ [0])
    have hpos : 0 < s₁.stacknxt.off + shellAlign (str.length + 1) := by omega
    generalize ht : ({ s₁ with
      heap := s₁.heap.set s₁.stacknxt.block (some (b.put s₁.stacknxt.off (str ++ [0])))
      stacknxt := s₁.stacknxt.add (shellAlign (str.length + 1))
      stacknleft := s₁.stacknleft - shellAlign (str.length + 1) } : Memstack) = t at hput
    have hfixed : 0 < t.stacknxt.off ∨ t.stackp = stackbase := by
      left
      rw [← ht]
      exact hpos
    have hstart : Within (protect t (extra₁ ++ P.chain)) t := ⟨[], hput.protected⟩
    -- however the commands end, the mark is popped and the string is on top
    have hafter : ∀ (r : Option Stop) (t' : Memstack), (r = none ∨ r = some .raised) →
        Within (protect t (extra₁ ++ P.chain)) t' →
        Program.wp (do
          popstackmark ⟨t.stackp, t.stacknxt, t.stacknleft⟩
          stunalloc s₁.stacknxt
          reraise r) (fun _ s' => Within P s') (Fails P) t' := by
      rintro r t' hr ⟨extra', h'⟩
      rw [Program.wp_bind]
      apply Program.wp_mono (wp_popstackmark hP hput (n := 0) h')
      · rintro _ t₁ ⟨hrestored, -⟩
        have hnxt : t₁.stacknxt = s₁.stacknxt.add (shellAlign (str.length + 1)) := by
          rw [hrestored.stacknxt, ← ht]
        rw [Program.wp_bind, stunalloc, Program.wp_bind, Program.wp_read, Program.wp_bind,
          wp_ptrdiff hnxt, Program.wp_modify]
        have hback : Restored s₁.stacknxt.off s₁ { t₁ with
            stacknleft := t₁.stacknleft + shellAlign (str.length + 1)
            stacknxt := s₁.stacknxt } := by
          obtain ⟨b₁, b', hb₁, hb', hagrees⟩ := hrestored.top
          subst ht
          have hb₂ : b.put s₁.stacknxt.off (str ++ [0]) = b₁ := by
            dsimp only at hb₁
            rw [h₁.regs.block, Table.get_set_self] at hb₁
            exact Option.some.inj hb₁
          constructor
          · exact hrestored.stackp
          · rfl
          · dsimp only
            rw [hrestored.stacknleft]
            exact Nat.sub_add_cancel hfits
          · exact hrestored.sstrend
          · intro a ha
            apply (hrestored.heap a ha).trans
            apply Table.get_set_of_ne
            rw [h₁.regs.block]
            exact ha
          · refine ⟨b, b', hb, hb', ?_, ?_, fun i hi => ?_⟩
            · rw [hagrees.prev, ← hb₂]
              rfl
            · rw [hagrees.size, ← hb₂]
              rfl
            · have habove : i < s₁.stacknxt.off + shellAlign (str.length + 1) + 0 := by omega
              rw [hagrees.bytes i habove, ← hb₂, Block.put_bytes_of_lt hi]
        have hwithin := h₁.restored hback (Nat.le_refl _)
        rcases hr with rfl | rfl
        · exact ⟨extra₁, hwithin⟩
        · exact ⟨extra₁, hwithin⟩
      · exact fun _ _ hfalse => hfalse.elim
    rw [Program.wp_bind, Program.wp_of_ok (setstackmark_of_fixed m hfixed), Program.wp_bind,
      wp_catching]
    apply Program.wp_mono (wp_evalCommands hP hput hfixed hsafe hstart)
    · exact fun _ t' h' => hafter none t' (Or.inl rfl) h'
    · intro stop t' h'
      cases stop with
      | raised => exact hafter (some .raised) t' (Or.inr rfl) h'
      | undefined => exact h'
      | died => trivial
  · exact fun _ _ hfails => hfails

theorem safe_cmdloop (m : Malloc) {commands : List (Ar Unit)}
    (hsafe : ∀ command ∈ commands, Safe command) : Safe (cmdloop m commands) := by
  induction commands with
  | nil =>
    rintro P s hP ⟨extra, h⟩
    rw [cmdloop, Program.wp_bind]
    apply Program.wp_mono (wp_setstackmark m h)
    · rintro _ s' ⟨-, n, hdvd, hle, rfl, -⟩
      exact ⟨extra, h.take hdvd hle⟩
    · exact fun _ _ hfalse => hfalse.elim
  | cons command rest ih =>
    rw [cmdloop]
    apply Safe.bind
    · exact (hsafe command List.mem_cons_self).withStackmark m
    · exact fun _ => ih fun c hc => hsafe c (List.mem_cons_of_mem command hc)

end

/-! ## Evaluations -/

mutual

/-- What a part puts into the word. -/
def Part.value (esc : UInt8 → Bool) : Part → Bytes
  | .stnputs str => str
  | .stputc c => [c]
  | .memtodest bs => escaped esc bs
  | .expari _ result => escaped esc (result.getD [])
  | .expbackq _ output => trimNewlines (escaped esc output)

def Parts.value (esc : UInt8 → Bool) : Parts → Bytes
  | .nil => []
  | .cons part parts => part.value esc ++ parts.value esc

end

section

variable (m : Malloc) (esc : UInt8 → Bool)

mutual

/-- **Nothing that an evaluation does is undefined**, and what is below it stays. -/
theorem Act.run_safe : ∀ a : Act, Safe (a.run m esc)
  | .evaltree body => (Acts.run_safe body).withStackmark m
  | .evalstring str commands => safe_evalstring m str (Commands.runs_safe commands)
  | .cmdloop commands => safe_cmdloop m (Commands.runs_safe commands)
  | .stalloc nbytes => safe_stalloc m nbytes
  | .expandarg parts => by
    intro P s hP h
    rw [Act.run, Program.wp_bind]
    apply Program.wp_mono (wp_expandarg m hP h (Parts.run_appends parts))
    · exact fun _ _ h' => h'.1
    · exact fun _ _ hfails => hfails
  | .casematch parts => (Parts.run_appends parts).safe_casematch m
  | .raise => safe_raise
  | .handler body => (Acts.run_safe body).handler

theorem Acts.run_safe : ∀ as : Acts, Safe (as.run m esc)
  | .nil => safe_pure
  | .cons a as => (Act.run_safe a).bind fun _ => Acts.run_safe as

theorem Commands.runs_safe : ∀ commands : Commands, ∀ command ∈ commands.runs m esc, Safe command
  | .nil, _, hmem => absurd hmem List.not_mem_nil
  | .cons command rest, c, hmem => by
    rcases List.mem_cons.mp hmem with rfl | hmem
    · exact Acts.run_safe command
    · exact Commands.runs_safe rest c hmem

theorem Part.run_appends : ∀ part : Part, Appends (part.run m esc) (part.value esc)
  | .stnputs str => appends_stnputs m str
  | .stputc c => appends_stputc m c
  | .memtodest bs => appends_memtodest m esc bs
  | .expari expr result => appends_expari m esc (Parts.run_appends expr) result
  | .expbackq n output => appends_expbackq m esc (Acts.run_safe n) output

theorem Parts.run_appends : ∀ parts : Parts, Appends (parts.run m esc) (parts.value esc)
  | .nil => by
    intro P s w _ h hbuild
    refine ⟨h, ?_⟩
    rw [Parts.value, List.append_nil]
    exact hbuild
  | .cons part parts => by
    intro P s w hP h hbuild
    rw [Parts.run, Program.wp_bind]
    apply Program.wp_mono (Part.run_appends part P s w hP h hbuild)
    · rintro _ s₁ ⟨h₁, hbuild₁⟩
      apply Program.wp_mono (Parts.run_appends parts P s₁ _ hP h₁ hbuild₁)
      · rintro _ s₂ ⟨h₂, hbuild₂⟩
        refine ⟨h₂, ?_⟩
        rw [Parts.value, ← List.append_assoc]
        exact hbuild₂
      · exact fun _ _ hfails => hfails
    · exact fun _ _ hfails => hfails

end

end

/-! ## Sessions -/

/-- A stack that marks can be set on and strings can grow on. -/
def Sound (s : Memstack) : Prop := ∃ P : Protected, P.Anchored ∧ Within P s

/-- The shell begins with nothing but `stackbase`. -/
def Protected.init : Protected := ⟨Memstack.init.heap.get, [stackbase], 0⟩

theorem anchored_init : Protected.init.Anchored where
  base := Option.some_ne_none _
  fixed t ht := by
    right
    exact (Option.some.inj ht).symm

theorem over_init : Over Protected.init [] Memstack.init where
  chain := ⟨rfl, _, rfl, rfl⟩
  nodup := List.nodup_singleton stackbase
  fresh a ha := absurd ha List.not_mem_nil
  kept _ _ _ := rfl
  top t ht := by
    obtain rfl : stackbase = t := Option.some.inj ht
    exact ⟨_, _, rfl, rfl, rfl, rfl, fun _ _ => rfl⟩
  low _ := Nat.le_refl 0
  regs := by
    refine ⟨rfl, ⟨_, rfl, rfl⟩, rfl, ?_, by decide⟩
    exact shellAlign_dvd 504

theorem sound_init : Sound Memstack.init := ⟨Protected.init, anchored_init, [], over_init⟩

/-- Nothing but `stackbase` is allocated, and all of it is free. -/
structure AtPrompt (s : Memstack) : Prop where
  stackp : s.stackp = stackbase
  stacknxt : s.stacknxt = ⟨stackbase, 0⟩
  stacknleft : s.stacknleft = minsize
  heap : ∀ a, a ≠ stackbase → s.heap.get a = none

section

variable (m : Malloc) (esc : UInt8 → Bool)

/-- What is back where it was at the start is at the prompt. -/
theorem Restored.atPrompt {floor : ℕ} {s : Memstack} (h : Restored floor Memstack.init s) :
    AtPrompt s where
  stackp := h.stackp
  stacknxt := h.stacknxt
  stacknleft := h.stacknleft
  heap a ha := by
    rw [h.heap a ha]
    obtain ⟨n, rfl⟩ : ∃ n, a = n + 1 := Nat.exists_eq_succ_of_ne_zero ha
    rfl

theorem wp_mainLoops {loops : List Commands} {s : Memstack}
    (hs : Restored 0 Memstack.init s) :
    (mainLoops m esc ⟨stackbase, ⟨stackbase, 0⟩, minsize⟩ loops).wp
      (fun ended s' => Sound s' ∧ (ended = false → AtPrompt s')) (fun stop _ => stop = .died) s := by
  induction loops generalizing s with
  | nil =>
    refine ⟨⟨Protected.init, anchored_init, [], ?_⟩, fun _ => hs.atPrompt⟩
    exact over_init.restored hs (Nat.le_refl 0)
  | cons commands rest ih =>
    have hover : Over Protected.init [] s := over_init.restored hs (Nat.le_refl 0)
    rw [mainLoops, Program.wp_bind]
    have hsafe := safe_cmdloop m (Commands.runs_safe m esc commands)
    apply Program.wp_mono (hsafe.catching anchored_init ⟨[], hover⟩)
    · rintro ex s₁ ⟨⟨extra, h₁⟩, rfl | rfl⟩
      · exact ⟨⟨Protected.init, anchored_init, extra, h₁⟩, fun heq => (nomatch heq)⟩
      · dsimp only
        rw [Program.wp_bind]
        apply Program.wp_mono (wp_popstackmark anchored_init over_init (n := 0) h₁)
        · exact fun _ s₂ hrestored => ih hrestored.1
        · exact fun _ _ hfalse => hfalse.elim
    · exact fun _ _ hdied => hdied

/-- An allocator that reuses nothing and moves nothing. -/
def Malloc.atEnd : Malloc where
  malloc h _ := some h.slots.length
  realloc _ a _ := some a
  junk _ := 0xaa
  malloc_free := by
    rintro h n a heq
    obtain rfl := Option.some.inj heq
    exact Table.get_eq_none_of_length_le (Nat.le_refl _)
  realloc_free heq := Or.inl (Option.some.inj heq).symm

variable {s : Memstack}

end

end OsMoap.Shell.Arena
