import Xv6.Base.Trie
import Xv6.Vm.PageTable

/-!
# Page tables as trees

A page table is a tree of depth two: a root, the tables its entries lead to, and the tables their
entries lead to. The entries of the tables at depth two map pages. `Table` says that the pages
of a table are a tree of pages of the allocator that are not free, that the entries at depth one and
two only lead on, and that the entries at the bottom only map.

`lookup` is the map: what `walk` finds for a virtual address. Growing the tree does not change it
(`Grown`), and writing an entry at the bottom changes it for one page (`Table.setLeaf`).
-/

namespace Xv6.Vm

open Base

/-- What an entry at the bottom says: the physical address and the flags. -/
def decode (pte : Nat) : Option (Nat × Nat) :=
  if has pte PTE_V then some (pte2pa pte, pteFlags pte) else none

namespace Ram

/-- The table an entry leads to. -/
def child (s : Ram) (p : Nat) (i : Fin 512) : Option Nat :=
  if has (s.pte p i) PTE_V then some (pte2pa (s.pte p i)) else none

/-- What an entry of a table at the bottom maps. -/
def mapping (s : Ram) (p : Nat) (i : Fin 512) : Option (Nat × Nat) := decode (s.pte p i)

/-- The pages of a page table. -/
def tables (s : Ram) (pt : Nat) : List Nat := Trie.nodes s.child 2 pt

/-- The table at the bottom that has the entry of a virtual address. -/
def bottom (s : Ram) (pt va : Nat) : Option Nat := Trie.follow s.child pt [px 2 va, px 1 va]

/-- The map a page table stands for, as `walk` finds it. -/
def lookup (s : Ram) (pt va : Nat) : Option (Nat × Nat) :=
  match walk pt va false s with
  | .ok (some (p, i), _) => s.mapping p i
  | _ => none

/-- The free list is a list of pages of the allocator, each once. -/
structure Sound (s : Ram) : Prop where
  nodup : s.freelist.Nodup
  managed : ∀ p ∈ s.freelist, s.Managed p
  kend : KERNBASE ≤ s.kend

end Ram

/-- A well-formed page table. -/
structure Table (s : Ram) (pt : Nat) : Prop where
  tree : Trie.Tree s.child pt 2
  own : ∀ p ∈ s.tables pt, s.Managed p ∧ p ∉ s.freelist
  link : ∀ (q : List (Fin 512)) p i, q.length < 2 → Trie.follow s.child pt q = some p →
    has (s.pte p i) PTE_V = true → has (s.pte p i) (PTE_R ||| PTE_W ||| PTE_X) = false
  leaf : ∀ (q : List (Fin 512)) p i, q.length = 2 → Trie.follow s.child pt q = some p →
    has (s.pte p i) PTE_V = true → has (s.pte p i) (PTE_R ||| PTE_W ||| PTE_X) = true
  half : ∀ i : Fin 512, 256 ≤ i.val → s.child pt i = none

variable {s s' : Ram} {pt p va pa : Nat} {i j : Fin 512} {v : Nat} {level a : Nat}

/-! ## Writing memory -/

namespace Ram

/-- A page reads back what was written to it. -/
@[simp] theorem setPage_page_self (s : Ram) (p : Nat) (b : Page) : (s.setPage p b).page p = b :=
  Function.update_self ..

/-- Writing one page leaves the others. -/
theorem setPage_page_ne (s : Ram) {p q : Nat} (b : Page) (h : q ≠ p) :
    (s.setPage p b).page q = s.page q :=
  Function.update_of_ne h ..

/-- Writing an entry takes no page from the free list. -/
@[simp] theorem setPte_freelist (s : Ram) (p : Nat) (i : Fin 512) (v : Nat) :
    (s.setPte p i v).freelist = s.freelist := by
  unfold setPte setPage
  rfl

@[simp] theorem setPte_kend (s : Ram) (p : Nat) (i : Fin 512) (v : Nat) :
    (s.setPte p i v).kend = s.kend := by
  unfold setPte setPage
  rfl

/-- The free list does not depend on the contents of the tables. -/
theorem Sound.setPte (h : s.Sound) (p : Nat) (i : Fin 512) (v : Nat) : (s.setPte p i v).Sound := by
  refine ⟨?_, fun x hx => ?_, ?_⟩
  · rw [setPte_freelist]
    exact h.nodup
  · rw [setPte_freelist] at hx
    unfold Managed
    rw [setPte_kend]
    exact h.managed x hx
  · rw [setPte_kend]
    exact h.kend

/-- Writing an entry changes no page but its table. -/
theorem setPte_page_ne (s : Ram) {p q : Nat} (i : Fin 512) (v : Nat) (h : q ≠ p) :
    (s.setPte p i v).page q = s.page q :=
  s.setPage_page_ne _ h

/-- An entry reads back what was written to it. -/
theorem pte_setPte (s : Ram) (p : Nat) (i : Fin 512) (hv : v < 2 ^ 64) :
    (s.setPte p i v).pte p i = v := by
  have hfit : 8 * i.val + 8 ≤ PGSIZE := by
    have hi := i.isLt
    show 8 * i.val + 8 ≤ 4096
    omega
  unfold pte setPte
  rw [setPage_page_self, Bytes.dword_setDword hfit, Nat.mod_eq_of_lt hv]

/-- The other entries of the table are as they were. -/
theorem pte_setPte_ne (s : Ram) (p : Nat) (v : Nat) (h : j ≠ i) :
    (s.setPte p i v).pte p j = s.pte p j := by
  unfold pte setPte
  rw [setPage_page_self]
  exact Bytes.dword_setDword_ne (fun he => h (Fin.ext he)) v

/-- A table's entries are read off its page. -/
theorem pte_congr (h : s'.page p = s.page p) (i : Fin 512) : s'.pte p i = s.pte p i := by
  unfold pte
  rw [h]

/-- The links out of a table are read off its page. -/
theorem child_congr (h : s'.page p = s.page p) : s'.child p = s.child p := by
  funext i
  unfold child
  rw [pte_congr h]

/-- The mappings of a table are read off its page. -/
theorem mapping_congr (h : s'.page p = s.page p) (i : Fin 512) :
    s'.mapping p i = s.mapping p i := by
  unfold mapping
  rw [pte_congr h]

/-- A cleared page is a table of empty entries. -/
theorem pte_zero (h : s.page p = filled 0) (i : Fin 512) : s.pte p i = 0 := by
  unfold pte
  rw [h]
  exact Bytes.dword_zero _

/-- A link is missing where the entry is not valid. -/
theorem child_eq_none_iff : s.child p i = none ↔ has (s.pte p i) PTE_V = false := by
  unfold child
  by_cases hv : has (s.pte p i) PTE_V = true
  · rw [if_pos hv, hv]
    exact ⟨nofun, nofun⟩
  · rw [if_neg hv]
    exact ⟨fun _ => Bool.eq_false_iff.mpr hv, fun _ => rfl⟩

end Ram

/-! ## Walking without allocating -/

/-- The indices `walk` uses from a level down to level 1. -/
def indices (va : Nat) : Nat → List (Fin 512)
  | 0 => []
  | level + 1 => px (level + 1) va :: indices va level

/-- The walk follows a valid entry. -/
theorem descend_link {alloc : Bool} (h : has (s.pte a (px (level + 1) va)) PTE_V = true) :
    descend va alloc (level + 1) a s = descend va alloc level (pte2pa (s.pte a (px (level + 1) va))) s := by
  rw [descend, run_get_bind]
  show (if _ then _ else _ : M (Option Nat)) s = _
  rw [if_pos h]

/-- Without `alloc`, the walk ends at an entry that is not valid. -/
theorem descend_none (h : has (s.pte a (px (level + 1) va)) PTE_V = false) :
    descend va false (level + 1) a s = .ok (none, s) := by
  rw [descend, run_get_bind]
  show (if _ then _ else _ : M (Option Nat)) s = _
  rw [if_neg (Bool.eq_false_iff.mp h), if_neg (by decide)]
  rfl

/-- With `alloc`, the walk goes on through a new table. -/
theorem descend_new (h : has (s.pte a (px (level + 1) va)) PTE_V = false)
    (hnew : newTable a (px (level + 1) va) s = .ok (some p, s')) :
    descend va true (level + 1) a s = descend va true level p s' := by
  rw [descend, run_get_bind]
  show (if _ then _ else _ : M (Option Nat)) s = _
  rw [if_neg (Bool.eq_false_iff.mp h), if_pos rfl, run_bind_ok hnew]

/-- With `alloc`, the walk fails where no table can be had. -/
theorem descend_out (h : has (s.pte a (px (level + 1) va)) PTE_V = false)
    (hnew : newTable a (px (level + 1) va) s = .ok (none, s')) :
    descend va true (level + 1) a s = .ok (none, s') := by
  rw [descend, run_get_bind]
  show (if _ then _ else _ : M (Option Nat)) s = _
  rw [if_neg (Bool.eq_false_iff.mp h), if_pos rfl, run_bind_ok hnew]
  rfl

/-- Without `alloc`, the walk follows the indices and writes nothing. -/
theorem descend_false (va level pt : Nat) (s : Ram) :
    descend va false level pt s = .ok (Trie.follow s.child pt (indices va level), s) := by
  induction level generalizing pt with
  | zero => rfl
  | succ level ih =>
    unfold indices
    rw [Trie.follow_cons]
    cases hv : has (s.pte pt (px (level + 1) va)) PTE_V with
    | true =>
      have hchild : s.child pt (px (level + 1) va) =
          some (pte2pa (s.pte pt (px (level + 1) va))) := if_pos hv
      rw [descend_link hv, ih, hchild]
      rfl
    | false =>
      rw [descend_none hv, Ram.child_eq_none_iff.mpr hv]
      rfl

/-- `walk` without `alloc` finds the bottom table's entry. -/
theorem walk_false (h : va < MAXVA) (pt : Nat) (s : Ram) :
    walk pt va false s = .ok ((s.bottom pt va).map fun p => (p, px 0 va), s) := by
  have hdescend : descend va false 2 pt s = .ok (s.bottom pt va, s) := descend_false va 2 pt s
  unfold walk
  rw [if_neg (Nat.not_le.mpr h), run_bind_ok hdescend]
  cases s.bottom pt va with
  | none => rfl
  | some p => rfl

/-- Where there is a bottom table, `walk` ends at its entry. -/
theorem walk_bottom (h : va < MAXVA) (hp : s.bottom pt va = some p) :
    walk pt va false s = .ok (some (p, px 0 va), s) := by
  rw [walk_false h, hp]
  rfl

/-- `walkaddr`'s lookup reads the entry that the walk ends at. -/
theorem Ram.lookup_eq (h : va < MAXVA) (pt : Nat) (s : Ram) :
    s.lookup pt va = (s.bottom pt va).bind fun p => s.mapping p (px 0 va) := by
  unfold lookup
  rw [walk_false h]
  cases s.bottom pt va with
  | none => rfl
  | some p => rfl

/-- A page that is mapped has an entry at the bottom. -/
theorem Ram.lookup_some (hva : va < MAXVA) {e : Nat × Nat} (h : s.lookup pt va = some e) :
    ∃ p, s.bottom pt va = some p ∧ has (s.pte p (px 0 va)) PTE_V = true ∧
      e = (pte2pa (s.pte p (px 0 va)), pteFlags (s.pte p (px 0 va))) := by
  rw [lookup_eq hva, Option.bind_eq_some_iff] at h
  obtain ⟨p, hp, he⟩ := h
  refine ⟨p, hp, ?_⟩
  unfold mapping decode at he
  by_cases hv : has (s.pte p (px 0 va)) PTE_V = true
  · rw [if_pos hv] at he
    exact ⟨hv, (Option.some.inj he).symm⟩
  · rw [if_neg hv] at he
    cases he

/-! ## The shape of a table -/

namespace Table

/-- The tables are the pages at most two links below the root. -/
theorem mem_tables_iff :
    p ∈ s.tables pt ↔ ∃ q : List (Fin 512), q.length ≤ 2 ∧ Trie.follow s.child pt q = some p :=
  Trie.mem_nodes

/-- A page reached in at most two links is a table. -/
theorem mem_of_follow {q : List (Fin 512)} (hq : q.length ≤ 2)
    (h : Trie.follow s.child pt q = some p) : p ∈ s.tables pt :=
  mem_tables_iff.mpr ⟨q, hq, h⟩

/-- The root is one of the tables. -/
theorem root_mem : pt ∈ s.tables pt := mem_of_follow (q := []) (Nat.zero_le _) rfl

/-- The walk ends in one of the tables. -/
theorem mem_of_bottom (h : s.bottom pt va = some p) : p ∈ s.tables pt :=
  mem_of_follow (q := [px 2 va, px 1 va]) (Nat.le_refl _) h

/-- No page is two of the tables. -/
theorem nodup (h : Table s pt) : (s.tables pt).Nodup := h.tree.nodup_nodes

/-- A table at the bottom is not one that leads on. -/
theorem ne_of_bottom (h : Table s pt) (hp : s.bottom pt va = some p) {q : List (Fin 512)} {a : Nat}
    (hq : q.length < 2) (ha : Trie.follow s.child pt q = some a) : a ≠ p := by
  rintro rfl
  have heq := h.tree q [px 2 va, px 1 va] a (Nat.le_of_lt hq) (Nat.le_refl _) ha hp
  rw [heq] at hq
  exact Nat.lt_irrefl 2 hq

/-- Two addresses with one entry are on one page. -/
theorem page_eq (h : Table s pt) {va' : Nat} (hva : va < MAXVA) (hva' : va' < MAXVA)
    (hp : s.bottom pt va = some p) (hp' : s.bottom pt va' = some p) (h0 : px 0 va = px 0 va') :
    va / PGSIZE = va' / PGSIZE := by
  have heq := h.tree [px 2 va, px 1 va] [px 2 va', px 1 va'] p (Nat.le_refl _) (Nat.le_refl _) hp hp'
  obtain ⟨h2, hrest⟩ := List.cons.inj heq
  exact px_inj hva hva' h2 (List.cons.inj hrest).1 h0

end Table

/-- Two addresses on one page have one entry. -/
theorem px_congr {va' : Nat} (h : va / PGSIZE = va' / PGSIZE) (level : Nat) :
    px level va = px level va' := by
  have hshift : ∀ a : Nat, a / 2 ^ (12 + 9 * level) = a / PGSIZE / 2 ^ (9 * level) := by
    intro a
    rw [Nat.pow_add, Nat.div_div_eq_div_mul]
  unfold px
  rw [Fin.mk.injEq, hshift, hshift, h]

/-- Addresses of one page share their bottom table. -/
theorem Ram.bottom_congr {va' : Nat} (h : va / PGSIZE = va' / PGSIZE) :
    s.bottom pt va = s.bottom pt va' := by
  unfold bottom
  rw [px_congr h 2, px_congr h 1]

/-! ## Changes outside the table -/

/-- Memory with the same pages in a table. -/
structure SameTable (s : Ram) (pt : Nat) (s' : Ram) : Prop where
  page : ∀ p ∈ s.tables pt, s'.page p = s.page p
  kend : s'.kend = s.kend

namespace SameTable

/-- Paths lead to the same tables. -/
theorem follow (h : SameTable s pt s') {q : List (Fin 512)} (hq : q.length ≤ 2) :
    Trie.follow s'.child pt q = Trie.follow s.child pt q := by
  have hsame : ∀ (r : List (Fin 512)) (a : Nat), r.length < 2 →
      Trie.follow s.child pt r = some a → s'.child a = s.child a := by
    intro r a hr ha
    exact Ram.child_congr (h.page a (Table.mem_of_follow (Nat.le_of_lt hr) ha))
  exact Trie.follow_congr hsame hq

/-- The tables are the same. -/
theorem mem_tables (h : SameTable s pt s') (p : Nat) : p ∈ s'.tables pt ↔ p ∈ s.tables pt := by
  rw [Table.mem_tables_iff, Table.mem_tables_iff]
  constructor
  · rintro ⟨q, hq, hp⟩
    exact ⟨q, hq, h.follow hq ▸ hp⟩
  · rintro ⟨q, hq, hp⟩
    exact ⟨q, hq, (h.follow hq).trans hp⟩

/-- So are the translations. -/
theorem lookup (h : SameTable s pt s') (hva : va < MAXVA) :
    s'.lookup pt va = s.lookup pt va := by
  have hbottom : s'.bottom pt va = s.bottom pt va := h.follow (Nat.le_refl _)
  rw [Ram.lookup_eq hva, Ram.lookup_eq hva, hbottom]
  refine Option.bind_congr fun p hp => ?_
  exact Ram.mapping_congr (h.page p (Table.mem_of_bottom hp)) _

/-- A tree none of whose tables changed is still one. -/
theorem table (h : SameTable s pt s') (ht : Table s pt)
    (hfree : ∀ p ∈ s.tables pt, p ∉ s'.freelist) : Table s' pt where
  tree := by
    refine ht.tree.congr fun r a hr ha => ?_
    exact Ram.child_congr (h.page a (Table.mem_of_follow (Nat.le_of_lt hr) ha))
  own p hp := by
    have hp := (h.mem_tables p).mp hp
    refine ⟨?_, hfree p hp⟩
    unfold Ram.Managed
    rw [h.kend]
    exact (ht.own p hp).1
  link q p i hq hp := by
    rw [h.follow (Nat.le_of_lt hq)] at hp
    rw [Ram.pte_congr (h.page p (Table.mem_of_follow (Nat.le_of_lt hq) hp))]
    exact ht.link q p i hq hp
  leaf q p i hq hp := by
    rw [h.follow (Nat.le_of_eq hq)] at hp
    rw [Ram.pte_congr (h.page p (Table.mem_of_follow (Nat.le_of_eq hq) hp))]
    exact ht.leaf q p i hq hp
  half i hi := by
    rw [Ram.child_congr (h.page pt Table.root_mem)]
    exact ht.half i hi

end SameTable

/-! ## Writing an entry at the bottom -/

namespace Table

/-- Writing a bottom entry moves no link. -/
theorem setLeaf_follow (h : Table s pt) (hp : s.bottom pt va = some p) (v : Nat)
    {q : List (Fin 512)} (hq : q.length ≤ 2) :
    Trie.follow (s.setPte p (px 0 va) v).child pt q = Trie.follow s.child pt q := by
  have hsame : ∀ (r : List (Fin 512)) (a : Nat), r.length < 2 →
      Trie.follow s.child pt r = some a → (s.setPte p (px 0 va) v).child a = s.child a := by
    intro r a hr ha
    exact Ram.child_congr (s.setPte_page_ne _ _ (h.ne_of_bottom hp hr ha))
  exact Trie.follow_congr hsame hq

/-- Writing a bottom entry adds and drops no table. -/
theorem setLeaf_tables (h : Table s pt) (hp : s.bottom pt va = some p) (v x : Nat) :
    x ∈ (s.setPte p (px 0 va) v).tables pt ↔ x ∈ s.tables pt := by
  rw [mem_tables_iff, mem_tables_iff]
  constructor
  · rintro ⟨q, hq, hx⟩
    exact ⟨q, hq, h.setLeaf_follow hp v hq ▸ hx⟩
  · rintro ⟨q, hq, hx⟩
    exact ⟨q, hq, (h.setLeaf_follow hp v hq).trans hx⟩

/-- The entry is written, and the table is well formed if the entry maps or is not valid. -/
theorem setLeaf (h : Table s pt) (hp : s.bottom pt va = some p) (hv : v < 2 ^ 64)
    (hleaf : has v PTE_V = true → has v (PTE_R ||| PTE_W ||| PTE_X) = true) :
    Table (s.setPte p (px 0 va) v) pt where
  tree := by
    refine h.tree.congr fun r a hr ha => ?_
    exact Ram.child_congr (s.setPte_page_ne _ _ (h.ne_of_bottom hp hr ha))
  own x hx := h.own x ((h.setLeaf_tables hp v x).mp hx)
  link q a j hq ha := by
    rw [h.setLeaf_follow hp v (Nat.le_of_lt hq)] at ha
    rw [Ram.pte_congr (s.setPte_page_ne _ _ (h.ne_of_bottom hp hq ha))]
    exact h.link q a j hq ha
  leaf q a j hq ha := by
    rw [h.setLeaf_follow hp v (Nat.le_of_eq hq)] at ha
    by_cases hap : a = p
    · subst hap
      by_cases hj : j = px 0 va
      · subst hj
        rw [s.pte_setPte _ _ hv]
        exact hleaf
      · rw [s.pte_setPte_ne _ _ hj]
        exact h.leaf q a j hq ha
    · rw [Ram.pte_congr (s.setPte_page_ne _ _ hap)]
      exact h.leaf q a j hq ha
  half j hj := by
    have hroot : pt ≠ p := h.ne_of_bottom (q := []) hp (by decide) rfl
    rw [Ram.child_congr (s.setPte_page_ne _ _ hroot)]
    exact h.half j hj

/-- Writing a bottom entry changes one page's translation. -/
theorem setLeaf_lookup (h : Table s pt) (hva : va < MAXVA) (hp : s.bottom pt va = some p)
    (hv : v < 2 ^ 64) {va' : Nat} (hva' : va' < MAXVA) :
    (s.setPte p (px 0 va) v).lookup pt va' =
      if va' / PGSIZE = va / PGSIZE then decode v else s.lookup pt va' := by
  have hbottom : (s.setPte p (px 0 va) v).bottom pt va' = s.bottom pt va' :=
    h.setLeaf_follow hp v (Nat.le_refl _)
  rw [Ram.lookup_eq hva', Ram.lookup_eq hva', hbottom]
  by_cases hpage : va' / PGSIZE = va / PGSIZE
  · rw [if_pos hpage, Ram.bottom_congr hpage, hp, px_congr hpage 0]
    show decode ((s.setPte p (px 0 va) v).pte p (px 0 va)) = _
    rw [s.pte_setPte _ _ hv]
  · rw [if_neg hpage]
    refine Option.bind_congr fun a ha => ?_
    by_cases hap : a = p
    · subst hap
      have hj : px 0 va' ≠ px 0 va := fun he => hpage (h.page_eq hva' hva ha hp he)
      unfold Ram.mapping
      rw [s.pte_setPte_ne _ _ hj]
    · exact Ram.mapping_congr (s.setPte_page_ne _ _ hap) _

end Table

/-! ## Growing -/

/-- The table has grown by free pages, and maps what it mapped. -/
structure Grown (s : Ram) (pt : Nat) (s' : Ram) : Prop where
  table : Table s' pt
  sound : s'.Sound
  kend : s'.kend = s.kend
  lookup : ∀ va, va < MAXVA → s'.lookup pt va = s.lookup pt va
  follow : ∀ (q : List (Fin 512)) p, q.length ≤ 2 → Trie.follow s.child pt q = some p →
    Trie.follow s'.child pt q = some p
  pages : (s'.tables pt ++ s'.freelist).Perm (s.tables pt ++ s.freelist)
  suffix : s'.freelist <:+ s.freelist
  /-- an entry that does not lead on is as it was -/
  kept : ∀ p ∈ s.tables pt, ∀ i, has (s'.pte p i) PTE_V = false → s'.pte p i = s.pte p i
  /-- in a new table it is zero -/
  fresh : ∀ p ∈ s'.tables pt, p ∉ s.tables pt → ∀ i, has (s'.pte p i) PTE_V = false →
    s'.pte p i = 0
  outside : ∀ p, p ∉ s.tables pt → p ∉ s.freelist → s'.page p = s.page p

namespace Grown

/-- Every table grows into itself. -/
theorem refl (ht : Table s pt) (hs : s.Sound) : Grown s pt s :=
  ⟨ht, hs, rfl, fun _ _ => rfl, fun _ _ _ h => h, .refl _, List.suffix_rfl, fun _ _ _ _ => rfl,
    fun _ hp hnot => absurd hp hnot, fun _ _ _ => rfl⟩

/-- Growing only moves pages from the free list to the tables. -/
theorem mem_iff (h : Grown s pt s') (p : Nat) :
    p ∈ s'.tables pt ∨ p ∈ s'.freelist ↔ p ∈ s.tables pt ∨ p ∈ s.freelist := by
  rw [← List.mem_append, ← List.mem_append]
  exact h.pages.mem_iff

/-- A growing tree keeps its tables. -/
theorem tables_mono (h : Grown s pt s') (hp : p ∈ s.tables pt) : p ∈ s'.tables pt := by
  obtain ⟨q, hq, hp⟩ := Table.mem_tables_iff.mp hp
  exact Table.mem_of_follow hq (h.follow q p hq hp)

/-- Growth is transitive. -/
theorem trans {s'' : Ram} (h : Grown s pt s') (h' : Grown s' pt s'') : Grown s pt s'' where
  table := h'.table
  sound := h'.sound
  kend := h'.kend.trans h.kend
  lookup va hva := (h'.lookup va hva).trans (h.lookup va hva)
  follow q p hq hp := h'.follow q p hq (h.follow q p hq hp)
  pages := h'.pages.trans h.pages
  suffix := h'.suffix.trans h.suffix
  kept p hp i hv := by
    have hp' := h.tables_mono hp
    have hsame := h'.kept p hp' i hv
    rw [hsame]
    exact h.kept p hp i (hsame ▸ hv)
  fresh p hp hnot i hv := by
    by_cases hp' : p ∈ s'.tables pt
    · have hsame := h'.kept p hp' i hv
      rw [hsame]
      exact h.fresh p hp' hnot i (hsame ▸ hv)
    · exact h'.fresh p hp hp' i hv
  outside p hp hfree := by
    have hnot : ¬ (p ∈ s'.tables pt ∨ p ∈ s'.freelist) := by
      rw [h.mem_iff]
      rintro (hin | hin)
      · exact hp hin
      · exact hfree hin
    have hout := h'.outside p (fun hin => hnot (.inl hin)) fun hin => hnot (.inr hin)
    exact hout.trans (h.outside p hp hfree)

end Grown

/-- A page of memory has a 56-bit address. -/
theorem Ram.Managed.lt (h : s.Managed pa) : pa < 2 ^ 56 := by
  have hstop : PHYSTOP = 2281701376 := by norm_num
  have hlt := h.2.2
  omega

/-- Memory after a free page has been entered as a table. -/
def Ram.graft (s : Ram) (a : Nat) (i : Fin 512) (r : Nat) (rest : List Nat) : Ram :=
  ({ s with freelist := rest }.setPage r (filled 0)).setPte a i (pa2pte r ||| PTE_V)

/-- `kalloc` fails when the free list is empty. -/
theorem kalloc_nil (h : s.freelist = []) : kalloc s = .ok (none, s) := by
  unfold kalloc
  rw [run_get_bind, h]
  rfl

/-- No table can be had when the free list is empty. -/
theorem newTable_nil (h : s.freelist = []) (a : Nat) (i : Fin 512) :
    newTable a i s = .ok (none, s) := by
  unfold newTable
  rw [run_bind_ok (kalloc_nil h)]
  rfl

/-- `kalloc` takes the head of the free list and fills it with junk. -/
theorem kalloc_cons {r : Nat} {rest : List Nat} (h : s.freelist = r :: rest) :
    kalloc s = .ok (some r, { s.setPage r (filled 5) with freelist := rest }) := by
  unfold kalloc
  rw [run_get_bind, h]
  rfl

/-- The last write to a page stands. -/
theorem Ram.setPage_setPage (s : Ram) (r : Nat) (b b' : Page) (rest : List Nat) :
    ({ s.setPage r b with freelist := rest } : Ram).setPage r b' =
      { s with freelist := rest }.setPage r b' := by
  unfold setPage
  simp only [Function.update_idem]

/-- A new table is grafted in at the entry. -/
theorem newTable_cons {r : Nat} {rest : List Nat} (h : s.freelist = r :: rest) (a : Nat)
    (i : Fin 512) : newTable a i s = .ok (some r, s.graft a i r rest) := by
  unfold newTable
  rw [run_bind_ok (kalloc_cons h)]
  show Except.ok (some r, (({ s.setPage r (filled 5) with freelist := rest } : Ram).setPage r
    (filled 0)).setPte a i (pa2pte r ||| PTE_V)) = _
  rw [Ram.setPage_setPage]
  rfl

section Graft

variable {q : List (Fin 512)} {a r : Nat} {rest : List Nat}

/-- The flags of an entry that leads on. -/
theorem link_flags (r : Nat) :
    has (pa2pte r ||| PTE_V) PTE_V = true ∧
      has (pa2pte r ||| PTE_V) (PTE_R ||| PTE_W ||| PTE_X) = false := by
  have hflags : pteFlags (pa2pte r ||| PTE_V) = PTE_V := pteFlags_make (by norm_num) r
  rw [← has_flags (by norm_num) (pa2pte r ||| PTE_V), hflags, ← has_flags (by decide)
    (pa2pte r ||| PTE_V), hflags]
  exact ⟨rfl, rfl⟩

/-- A graft writes the table above and the new one only. -/
theorem graft_page_ne {x : Nat} (hxa : x ≠ a) (hxr : x ≠ r) :
    (s.graft a i r rest).page x = s.page x := by
  unfold Ram.graft
  rw [Ram.setPte_page_ne _ _ _ hxa, Ram.setPage_page_ne _ _ hxr]

/-- The new table is clear. -/
theorem graft_page_new (har : r ≠ a) : (s.graft a i r rest).page r = filled 0 := by
  unfold Ram.graft
  rw [Ram.setPte_page_ne _ _ _ har, Ram.setPage_page_self]

/-- The entry now points at the new table. -/
theorem graft_pte_self (hr : s.Managed r) :
    (s.graft a i r rest).pte a i = pa2pte r ||| PTE_V :=
  Ram.pte_setPte _ _ _ (make_lt (by norm_num) hr.lt)

/-- The other entries of the table above are as they were. -/
theorem graft_pte_ne (har : a ≠ r) (hj : j ≠ i) :
    (s.graft a i r rest).pte a j = s.pte a j := by
  unfold Ram.graft
  rw [Ram.pte_setPte_ne _ _ _ hj]
  exact Ram.pte_congr (Ram.setPage_page_ne _ _ har) j

/-- The entry leads to the new table. -/
theorem graft_child_self (hr : s.Managed r) : (s.graft a i r rest).child a i = some r := by
  unfold Ram.child
  rw [graft_pte_self hr, if_pos (link_flags r).1, pte2pa_make (by norm_num) hr.1 hr.lt]

/-- The new table leads nowhere. -/
theorem graft_child_new (har : r ≠ a) : (s.graft a i r rest).child r j = none := by
  rw [Ram.child_eq_none_iff, Ram.pte_zero (graft_page_new har)]
  rfl

variable (ht : Table s pt) (hs : s.Sound) (hfree : s.freelist = r :: rest) (hq : q.length < 2)
  (ha : Trie.follow s.child pt q = some a) (hnone : s.child a i = none)

include ht hfree hq ha

/-- The new table is not the one above it. -/
theorem graft_ne : a ≠ r := by
  rintro rfl
  refine (ht.own a (Table.mem_of_follow (Nat.le_of_lt hq) ha)).2 ?_
  rw [hfree]
  exact List.mem_cons_self ..

include hs hnone

/-- The graft is one of the tree's. -/
theorem grafted : Trie.Grafted s.child (s.graft a i r rest).child pt 2 q i r := by
  have hne := graft_ne ht hfree hq ha
  have hr : r ∈ s.freelist := by
    rw [hfree]
    exact List.mem_cons_self ..
  refine ⟨hq, ⟨a, ha, hnone, graft_child_self (hs.managed r hr), fun j hj => ?_, fun x hxa hxr => ?_⟩,
    fun q' hq' hr' => ?_, fun j => graft_child_new hne.symm⟩
  · unfold Ram.child
    rw [graft_pte_ne hne hj]
  · exact Ram.child_congr (graft_page_ne hxa hxr)
  · exact (ht.own r (Table.mem_of_follow hq' hr')).2 hr

/-- A table that is not the new one was there before. -/
theorem graft_follow_old {q' : List (Fin 512)} {x : Nat} (hq' : q'.length ≤ 2)
    (hx : Trie.follow (s.graft a i r rest).child pt q' = some x) :
    x = r ∨ Trie.follow s.child pt q' = some x := by
  have hgraft := grafted ht hs hfree hq ha hnone
  rw [hgraft.follow_eq ht.tree hq'] at hx
  by_cases hnew : q' = q ++ [i]
  · rw [if_pos hnew] at hx
    exact .inl (Option.some.inj hx).symm
  · rw [if_neg hnew] at hx
    exact .inr hx

/-- A valid entry is the new one, or was there before. -/
theorem graft_pte_cases {q' : List (Fin 512)} {x : Nat} (hq' : q'.length ≤ 2)
    (hx : Trie.follow (s.graft a i r rest).child pt q' = some x)
    (hvalid : has ((s.graft a i r rest).pte x j) PTE_V = true) :
    (x = a ∧ j = i) ∨ (Trie.follow s.child pt q' = some x ∧
      (s.graft a i r rest).pte x j = s.pte x j) := by
  have hne := graft_ne ht hfree hq ha
  have hgraft := grafted ht hs hfree hq ha hnone
  rcases graft_follow_old ht hs hfree hq ha hnone hq' hx with rfl | hold
  · rw [Ram.pte_zero (graft_page_new hne.symm)] at hvalid
    cases hvalid
  · have hxr : x ≠ r := fun he => hgraft.fresh q' hq' (he ▸ hold)
    by_cases hxa : x = a
    · subst hxa
      by_cases hj : j = i
      · exact .inl ⟨rfl, hj⟩
      · exact .inr ⟨hold, graft_pte_ne hne hj⟩
    · exact .inr ⟨hold, Ram.pte_congr (graft_page_ne hxa hxr) j⟩

/-- Only the lower half of the root is ever written. -/
theorem graft_half (hhalf : q = [] → i.val < 256) (hj : 256 ≤ j.val) :
    (s.graft a i r rest).child pt j = none := by
  have hgraft := grafted ht hs hfree hq ha hnone
  have hchild : ∀ t : Ram, Trie.follow t.child pt [j] = t.child pt j := by
    intro t
    rw [← List.nil_append [j], Trie.follow_snoc]
    rfl
  have hne : [j] ≠ q ++ [i] := by
    intro he
    cases q with
    | nil =>
      have hji : j = i := (List.cons.inj he).1
      have hlow := hhalf rfl
      omega
    | cons x q =>
      have hlen := congrArg List.length he
      simp at hlen
  have hone : Trie.follow (s.graft a i r rest).child pt [j] = Trie.follow s.child pt [j] := by
    have hlen : [j].length ≤ 2 := Nat.le_succ 1
    rw [hgraft.follow_eq ht.tree hlen, if_neg hne]
  rw [← hchild, hone, hchild]
  exact ht.half j hj

/-- A graft keeps the tree well formed. -/
theorem graft_table (hhalf : q = [] → i.val < 256) : Table (s.graft a i r rest) pt := by
  have hne := graft_ne ht hfree hq ha
  have hgraft := grafted ht hs hfree hq ha hnone
  have hmanaged : s.Managed r := hs.managed r (hfree ▸ List.mem_cons_self ..)
  refine ⟨hgraft.tree ht.tree, fun x hx => ?_, fun q' x j hq' hx hvalid => ?_,
    fun q' x j hq' hx hvalid => ?_, fun j => graft_half ht hs hfree hq ha hnone hhalf⟩
  · rcases (hgraft.mem_nodes_iff ht.tree x).mp hx with rfl | hx
    · exact ⟨hmanaged, (List.nodup_cons.mp (hfree ▸ hs.nodup)).1⟩
    · obtain ⟨hown, hnot⟩ := ht.own x hx
      exact ⟨hown, fun hin => hnot (hfree ▸ List.mem_cons_of_mem _ hin)⟩
  · rcases graft_pte_cases ht hs hfree hq ha hnone (Nat.le_of_lt hq') hx hvalid with
      ⟨rfl, rfl⟩ | ⟨hold, hsame⟩
    · rw [graft_pte_self hmanaged]
      exact (link_flags r).2
    · rw [hsame] at hvalid ⊢
      exact ht.link q' x j hq' hold hvalid
  · rcases graft_pte_cases ht hs hfree hq ha hnone (Nat.le_of_eq hq') hx hvalid with
      ⟨rfl, -⟩ | ⟨hold, hsame⟩
    · -- the table that was written is not at the bottom
      rcases graft_follow_old ht hs hfree hq ha hnone (Nat.le_of_eq hq') hx with rfl | hold
      · exact absurd rfl hne
      · have heq := ht.tree q' q x (Nat.le_of_eq hq') (Nat.le_of_lt hq) hold ha
        rw [heq] at hq'
        omega
    · rw [hsame] at hvalid ⊢
      exact ht.leaf q' x j hq' hold hvalid

/-- A graft translates no address. -/
theorem graft_lookup (hva : va < MAXVA) :
    (s.graft a i r rest).lookup pt va = s.lookup pt va := by
  have hne := graft_ne ht hfree hq ha
  have hgraft := grafted ht hs hfree hq ha hnone
  have hlen : [px 2 va, px 1 va].length ≤ 2 := Nat.le_refl _
  have hbottom : (s.graft a i r rest).bottom pt va =
      if [px 2 va, px 1 va] = q ++ [i] then some r else s.bottom pt va :=
    hgraft.follow_eq ht.tree hlen
  rw [Ram.lookup_eq hva, Ram.lookup_eq hva, hbottom]
  by_cases hnew : [px 2 va, px 1 va] = q ++ [i]
  · have hbefore : s.bottom pt va = none := by
      unfold Ram.bottom
      rw [hnew, Trie.follow_snoc, ha]
      exact hnone
    rw [if_pos hnew, hbefore]
    show decode ((s.graft a i r rest).pte r (px 0 va)) = none
    rw [Ram.pte_zero (graft_page_new hne.symm)]
    rfl
  · rw [if_neg hnew]
    refine Option.bind_congr fun x hx => ?_
    have hxa : x ≠ a := (ht.ne_of_bottom hx hq ha).symm
    have hxr : x ≠ r := fun he => hgraft.fresh _ hlen (he ▸ hx)
    exact Ram.mapping_congr (graft_page_ne hxa hxr) _

/-- Entering a cleared free page where nothing was entered. -/
theorem graft_grown (hhalf : q = [] → i.val < 256) : Grown s pt (s.graft a i r rest) := by
  have hgraft := grafted ht hs hfree hq ha hnone
  have htable := graft_table ht hs hfree hq ha hnone hhalf
  have hr : r ∈ s.freelist := hfree ▸ List.mem_cons_self ..
  have hamem : a ∈ s.tables pt := Table.mem_of_follow (Nat.le_of_lt hq) ha
  have hsound : (s.graft a i r rest).Sound :=
    ⟨(List.nodup_cons.mp (hfree ▸ hs.nodup)).2,
      fun x hx => hs.managed x (hfree ▸ List.mem_cons_of_mem _ hx), hs.kend⟩
  have hne := graft_ne ht hfree hq ha
  refine ⟨htable, hsound, rfl, fun va => graft_lookup ht hs hfree hq ha hnone, fun q' x hq' hx => ?_,
    ?_, hfree ▸ List.suffix_cons .., fun x hx j hv => ?_, fun x hx hnot j _ => ?_,
    fun x hx hxfree => ?_⟩
  · have hnew : q' ≠ q ++ [i] := by
      rintro rfl
      rw [Trie.follow_snoc, ha] at hx
      exact absurd (hnone.symm.trans hx) nofun
    rw [hgraft.follow_eq ht.tree hq', if_neg hnew, hx]
  · -- the new page has moved from the free list to the table
    have hrnot : r ∉ s.tables pt := fun hin => (ht.own r hin).2 hr
    have hperm : ((s.graft a i r rest).tables pt).Perm (r :: s.tables pt) := by
      refine (List.perm_ext_iff_of_nodup htable.nodup
        (List.nodup_cons.mpr ⟨hrnot, ht.nodup⟩)).mpr fun x => ?_
      rw [List.mem_cons]
      exact hgraft.mem_nodes_iff ht.tree x
    rw [hfree]
    exact (hperm.append_right rest).trans List.perm_middle.symm
  · have hxr : x ≠ r := fun he => (ht.own x hx).2 (he ▸ hr)
    by_cases hxa : x = a
    · subst hxa
      by_cases hj : j = i
      · subst hj
        rw [graft_pte_self (hs.managed r hr), (link_flags r).1] at hv
        cases hv
      · exact graft_pte_ne hne hj
    · exact Ram.pte_congr (graft_page_ne hxa hxr) j
  · rcases (hgraft.mem_nodes_iff ht.tree x).mp hx with rfl | hold
    · exact Ram.pte_zero (graft_page_new hne.symm) j
    · exact absurd hold hnot
  · exact graft_page_ne (fun he => hx (he ▸ hamem)) fun he => hxfree (he ▸ hr)

end Graft

/-! ## Walking and allocating -/

/-- The tables `walk` needs are there, or memory has run out. -/
theorem descend_true (hva : va < MAXVA) (level : Nat) (hlevel : level ≤ 2) {q : List (Fin 512)}
    (hq : q.length + level = 2) (ha : Trie.follow s.child pt q = some a) (ht : Table s pt)
    (hs : s.Sound) :
    ∃ r s', descend va true level a s = .ok (r, s') ∧ Grown s pt s' ∧
      (r = none ∧ s'.freelist = [] ∨
        ∃ p, r = some p ∧ Trie.follow s'.child pt (q ++ indices va level) = some p) := by
  induction level generalizing s q a with
  | zero =>
    refine ⟨some a, s, rfl, .refl ht hs, .inr ⟨a, rfl, ?_⟩⟩
    unfold indices
    rwa [List.append_nil]
  | succ level ih =>
    have hshort : q.length < 2 := by omega
    have hnext : (q ++ [px (level + 1) va]).length + level = 2 := by
      rw [List.length_append, List.length_singleton]
      omega
    have hsplit : q ++ indices va (level + 1) = q ++ [px (level + 1) va] ++ indices va level := by
      rw [List.append_assoc]
      rfl
    rw [hsplit]
    cases hv : has (s.pte a (px (level + 1) va)) PTE_V with
    | true =>
      have hchild : s.child a (px (level + 1) va) =
          some (pte2pa (s.pte a (px (level + 1) va))) := if_pos hv
      have hb : Trie.follow s.child pt (q ++ [px (level + 1) va]) =
          some (pte2pa (s.pte a (px (level + 1) va))) := by
        rw [Trie.follow_snoc, ha]
        exact hchild
      rw [descend_link hv]
      exact ih (by omega) hnext hb ht hs
    | false =>
      have hnone : s.child a (px (level + 1) va) = none := Ram.child_eq_none_iff.mpr hv
      cases hfree : s.freelist with
      | nil =>
        rw [descend_out hv (newTable_nil hfree a _)]
        exact ⟨none, s, rfl, .refl ht hs, .inl ⟨rfl, hfree⟩⟩
      | cons r rest =>
        have hhalf : q = [] → (px (level + 1) va).val < 256 := by
          rintro rfl
          have hlast : level + 1 = 2 := by
            rw [List.length_nil] at hq
            omega
          rw [hlast]
          exact px_two_lt hva
        have hgrown := graft_grown ht hs hfree hshort ha hnone hhalf
        have hb := (grafted ht hs hfree hshort ha hnone).follow_self ht.tree
        rw [descend_new hv (newTable_cons hfree a _)]
        obtain ⟨r', s', hrun, hgrown', hend⟩ := ih (by omega) hnext hb hgrown.table hgrown.sound
        exact ⟨r', s', hrun, hgrown.trans hgrown', hend⟩

/-- `walk` with `alloc` grows the tree to the bottom, or memory is out. -/
theorem walk_true (hva : va < MAXVA) (ht : Table s pt) (hs : s.Sound) :
    ∃ r s', walk pt va true s = .ok (r, s') ∧ Grown s pt s' ∧
      (r = none ∧ s'.freelist = [] ∨
        ∃ p, r = some (p, px 0 va) ∧ s'.bottom pt va = some p) := by
  obtain ⟨r, s', hrun, hgrown, hend⟩ := descend_true (q := []) hva 2 (Nat.le_refl _) rfl rfl ht hs
  unfold walk
  rw [if_neg (Nat.not_le.mpr hva), run_bind_ok hrun]
  rcases hend with ⟨rfl, hempty⟩ | ⟨p, rfl, hp⟩
  · exact ⟨none, s', rfl, hgrown, .inl ⟨rfl, hempty⟩⟩
  · exact ⟨some (p, px 0 va), s', rfl, hgrown, .inr ⟨p, rfl, hp⟩⟩

end Xv6.Vm
