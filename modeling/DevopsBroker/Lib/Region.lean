import Mathlib.Algebra.BigOperators.Group.List.Basic
import Mathlib.Algebra.Ring.Nat
import Mathlib.Order.Interval.Finset.Nat

/-!
# Regions of memory, and a stock of them

A `Region` is a number of bytes in a row. Regions that are pairwise `Apart` need as much
room as they have bytes (`sum_size_le`), and so do not fit into a small address space in
large numbers. Blocks that are `Cut` off pages one behind the other are apart.

A `Stock` is what a pool owns, split into what is free and what is held. Supplying,
acquiring and releasing keep the split; whatever holds of the items pairwise holds of
those held.
-/

namespace DevopsBroker.Lib

/-- `size` bytes from `start` on. -/
structure Region where
  start : Nat
  size : Nat
  deriving DecidableEq

namespace Region

/-- No byte belongs to both. -/
def Apart (a b : Region) : Prop := a.start + a.size ≤ b.start ∨ b.start + b.size ≤ a.start

/-- Every byte of `a` is one of `b`. -/
def Within (a b : Region) : Prop := b.start ≤ a.start ∧ a.start + a.size ≤ b.start + b.size

theorem Apart.symm {a b : Region} (h : a.Apart b) : b.Apart a := Or.symm h

/-- Parts of regions that are apart are apart. -/
theorem Apart.within {a a' b b' : Region} (h : a'.Apart b') (ha : a.Within a')
    (hb : b.Within b') : a.Apart b := by
  unfold Within at ha hb
  rcases h with hlow | hhigh
  · left
    omega
  · right
    omega

theorem not_apart_self {a : Region} (h : 0 < a.size) : ¬ a.Apart a := by
  unfold Apart
  omega

/-- The `i`-th of the pieces that a region is cut into. -/
def piece (start size i : Nat) : Region := ⟨start + size * i, size⟩

theorem piece_succ (start size i : Nat) :
    piece (start + size) size i = piece start size (i + 1) := by
  unfold piece
  rw [Nat.mul_succ, Nat.add_assoc, Nat.add_comm size]

theorem piece_within {start size i n : Nat} (h : i < n) :
    (piece start size i).Within ⟨start, size * n⟩ := by
  have hend : size * (i + 1) ≤ size * n := Nat.mul_le_mul_left size h
  rw [Nat.mul_succ] at hend
  unfold piece Within
  dsimp only
  omega

theorem piece_apart {start size i j : Nat} (h : i < j) :
    (piece start size i).Apart (piece start size j) := by
  have hend : size * (i + 1) ≤ size * j := Nat.mul_le_mul_left size h
  rw [Nat.mul_succ] at hend
  left
  unfold piece
  dsimp only
  omega

/-! ## Blocks cut off a page -/

/-- Blocks that were cut off pages, one behind the other. The last page is in use up to
`used`; of those before it nothing more is taken. -/
structure Cut (before : List Region) (page : Region) (used : Nat) (blocks : List Region) :
    Prop where
  inside : ∀ block ∈ blocks,
    (∃ page ∈ before, block.Within page) ∨ block.Within ⟨page.start, used⟩
  apart : blocks.Pairwise Apart

/-- The next block is apart from all of them. -/
theorem Cut.block {before blocks : List Region} {page : Region} {used size : Nat}
    (h : Cut before page used blocks) (hpages : ∀ other ∈ before, other.Apart page)
    (hroom : used + size ≤ page.size) :
    Cut before page (used + size) (⟨page.start + used, size⟩ :: blocks) := by
  have hnew : (⟨page.start + used, size⟩ : Region).Within page := by
    unfold Within
    dsimp only
    omega
  constructor
  · intro block hblock
    rcases List.mem_cons.mp hblock with rfl | hold
    · right
      unfold Within
      dsimp only
      omega
    · rcases h.inside block hold with hbefore | hpage
      · exact Or.inl hbefore
      · right
        unfold Within at hpage ⊢
        dsimp only at hpage ⊢
        omega
  · refine List.pairwise_cons.mpr ⟨?_, h.apart⟩
    intro block hold
    apply Apart.symm
    rcases h.inside block hold with ⟨other, hother, hblock⟩ | hpage
    · exact (hpages other hother).within hblock hnew
    · left
      unfold Within at hpage
      dsimp only at hpage ⊢
      omega

/-- Another page is taken. -/
theorem Cut.nextPage {before blocks : List Region} {page : Region} {used : Nat}
    (h : Cut before page used blocks) (hused : used ≤ page.size) (next : Region) :
    Cut (before ++ [page]) next 0 blocks := by
  refine ⟨?_, h.apart⟩
  intro block hblock
  left
  rcases h.inside block hblock with ⟨other, hother, hin⟩ | hpage
  · exact ⟨other, List.mem_append_left _ hother, hin⟩
  · refine ⟨page, List.mem_append_right _ (List.mem_singleton_self _), ?_⟩
    unfold Within at hpage ⊢
    dsimp only at hpage ⊢
    omega

/-- Every block lies in one page. -/
theorem Cut.within_page {before blocks : List Region} {page block : Region} {used : Nat}
    (h : Cut before page used blocks) (hused : used ≤ page.size) (hblock : block ∈ blocks) :
    ∃ home ∈ before ++ [page], block.Within home := by
  rcases (h.nextPage hused page).inside block hblock with hhome | hempty
  · exact hhome
  · refine ⟨page, List.mem_append_right _ (List.mem_singleton_self _), ?_⟩
    unfold Within at hempty ⊢
    dsimp only at hempty
    omega

/-! ## Room -/

/-- The bytes of some regions. -/
def cover : List Region → Finset Nat
  | [] => ∅
  | r :: regions => Finset.Ico r.start (r.start + r.size) ∪ cover regions

theorem mem_cover {regions : List Region} {i : Nat} :
    i ∈ cover regions ↔ ∃ r ∈ regions, r.start ≤ i ∧ i < r.start + r.size := by
  induction regions with
  | nil => simp [cover]
  | cons r regions ih => simp [cover, ih]

/-- Regions that are apart have as many bytes as their sizes say. -/
theorem card_cover {regions : List Region} (h : regions.Pairwise Apart) :
    (cover regions).card = (regions.map size).sum := by
  induction regions with
  | nil => rfl
  | cons r regions ih =>
    obtain ⟨hr, hrest⟩ := List.pairwise_cons.mp h
    have hdisjoint : Disjoint (Finset.Ico r.start (r.start + r.size)) (cover regions) := by
      apply Finset.disjoint_left.mpr
      intro i hi hcover
      obtain ⟨r', hr', hlow, hhigh⟩ := mem_cover.mp hcover
      obtain ⟨hlow', hhigh'⟩ := Finset.mem_Ico.mp hi
      rcases hr r' hr' with hleft | hright <;> omega
    rw [cover, Finset.card_union_of_disjoint hdisjoint, ih hrest, Nat.card_Ico, List.map_cons,
      List.sum_cons, Nat.add_sub_cancel_left]

/-- **Regions that are apart fit into the room they are in.** -/
theorem sum_size_le {regions : List Region} (h : regions.Pairwise Apart) {low high : Nat}
    (hin : ∀ r ∈ regions, low ≤ r.start ∧ r.start + r.size ≤ high) :
    (regions.map size).sum ≤ high - low := by
  rw [← card_cover h, ← Nat.card_Ico]
  apply Finset.card_le_card
  intro i hi
  obtain ⟨r, hr, hlow, hhigh⟩ := mem_cover.mp hi
  have hroom := hin r hr
  exact Finset.mem_Ico.mpr ⟨by omega, by omega⟩

end Region

/-- Items of which each one is free or held. -/
structure Stock (α : Type) where
  all : List α
  free : List α
  held : List α
  partition : all.Perm (free ++ held)

namespace Stock

variable {α : Type}

/-- Nothing yet. -/
def empty : Stock α := ⟨[], [], [], List.Perm.nil⟩

/-- Add items to the free ones. -/
def supply (stock : Stock α) (items : List α) : Stock α where
  all := stock.all ++ items
  free := stock.free ++ items
  held := stock.held
  partition := by
    have hswap : (stock.held ++ items).Perm (items ++ stock.held) := List.perm_append_comm
    have hall := stock.partition.append_right items
    rw [List.append_assoc] at hall ⊢
    exact hall.trans (hswap.append_left stock.free)

/-- Hand out the free item that came last. -/
def acquire (stock : Stock α) {rest : List α} {item : α} (h : stock.free = rest ++ [item]) :
    Stock α where
  all := stock.all
  free := rest
  held := item :: stock.held
  partition := by
    have hall := stock.partition
    rw [h, List.append_assoc] at hall
    exact hall

/-- Take an item back. -/
def release [DecidableEq α] (stock : Stock α) {item : α} (h : item ∈ stock.held) : Stock α where
  all := stock.all
  free := stock.free ++ [item]
  held := stock.held.erase item
  partition := by
    have hheld := (List.perm_cons_erase h).append_left stock.free
    rw [List.append_assoc]
    exact stock.partition.trans hheld

/-- What is free and what is held adds up to what there is. -/
theorem length_all (stock : Stock α) : stock.all.length = stock.free.length + stock.held.length := by
  rw [stock.partition.length_eq, List.length_append]

/-- **A symmetric relation between any two items holds between any two that are held.** -/
theorem pairwise_held (stock : Stock α) {R : α → α → Prop} (hsymm : ∀ {a b}, R a b → R b a)
    (h : stock.all.Pairwise R) : stock.held.Pairwise R :=
  (List.pairwise_append.mp ((stock.partition.pairwise_iff hsymm).mp h)).2.1

theorem mem_all_of_mem_held (stock : Stock α) {item : α} (h : item ∈ stock.held) :
    item ∈ stock.all :=
  stock.partition.mem_iff.mpr (List.mem_append_right _ h)

end Stock

end DevopsBroker.Lib
