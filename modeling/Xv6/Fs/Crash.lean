import Xv6.Fs.Log

/-!
# A commit is atomic under crashes

The disk's contents are read through the log. `Holds l lh new d` says that the header of `d` names
the blocks `lh`, that their log blocks hold their contents in `new`, and that every other home
block holds its contents in `new` already. What a completed recovery restores from such a disk is
`new`, whatever the blocks of `lh` hold at home.

Each write of `commit` and of `recover_from_log` is then one of four: a write into the log while
the header is empty, which changes nothing the disk holds; the header write, which takes the disk
from holding the old contents to holding the new ones; a home write of the logged contents, which
changes nothing; and the header write that clears the log once every logged block is home. The
rest is an induction over the writes that reached the disk and over the recoveries cut short.
-/

namespace Xv6.Fs

open Base Function

/-! ## Writes -/

namespace Disk

@[simp] theorem apply_nil (d : Disk) : d.apply [] = d := rfl

@[simp] theorem apply_cons (d : Disk) (w : Write) (ws : List Write) :
    d.apply (w :: ws) = apply (update d w.1 w.2) ws := rfl

theorem apply_append (d : Disk) (ws ws' : List Write) :
    d.apply (ws ++ ws') = (d.apply ws).apply ws' := List.foldl_append

variable {ws : List Write}

theorem apply_of_notMem {d : Disk} {b : Nat} (h : ∀ w ∈ ws, w.1 ≠ b) :
    d.apply ws b = d b := by
  induction ws generalizing d with
  | nil => rfl
  | cons w ws ih =>
    rw [apply_cons, ih fun w' hw' => h w' (List.mem_cons_of_mem _ hw')]
    exact update_of_ne (h w (List.mem_cons_self ..)).symm ..

/-- Writes that all agree with `new` leave a block they write with its contents there. -/
theorem apply_of_mem {d new : Disk} {b : Nat} (hws : ∀ w ∈ ws, w.2 = new w.1)
    (hb : ∃ w ∈ ws, w.1 = b) : d.apply ws b = new b := by
  induction ws generalizing d with
  | nil =>
    obtain ⟨w, hw, -⟩ := hb
    cases hw
  | cons w ws ih =>
    have hrest : ∀ w' ∈ ws, w'.2 = new w'.1 := fun w' hw' => hws w' (List.mem_cons_of_mem _ hw')
    rw [apply_cons]
    by_cases hlater : ∃ w' ∈ ws, w'.1 = b
    · exact ih hrest hlater
    · rw [apply_of_notMem fun w' hw' he => hlater ⟨w', hw', he⟩]
      obtain ⟨w', hw', rfl⟩ := hb
      rcases List.mem_cons.mp hw' with rfl | hw'
      · rw [update_self]
        exact hws _ (List.mem_cons_self ..)
      · exact absurd ⟨w', hw', rfl⟩ hlater

/-- What writes leave in a block they write does not depend on the disk before. -/
theorem apply_congr_of_mem (d d' : Disk) {b : Nat} (hb : ∃ w ∈ ws, w.1 = b) :
    d.apply ws b = d'.apply ws b := by
  induction ws generalizing d d' with
  | nil =>
    obtain ⟨w, hw, -⟩ := hb
    cases hw
  | cons w ws ih =>
    rw [apply_cons, apply_cons]
    by_cases hlater : ∃ w' ∈ ws, w'.1 = b
    · exact ih _ _ hlater
    · have hrest : ∀ w' ∈ ws, w'.1 ≠ b := fun w' hw' he => hlater ⟨w', hw', he⟩
      obtain ⟨w', hw', rfl⟩ := hb
      rcases List.mem_cons.mp hw' with rfl | hw'
      · rw [apply_of_notMem hrest, apply_of_notMem hrest, update_self,
          update_self]
      · exact absurd ⟨w', hw', rfl⟩ hlater

end Disk

/-- A prefix of two lists together ends in the first or in the second. -/
theorem prefix_append_cases {α : Type} {p xs ys : List α} (h : p <+: xs ++ ys) :
    p <+: xs ∨ ∃ q, q <+: ys ∧ p = xs ++ q := by
  obtain ⟨rest, hrest⟩ := h
  rcases List.append_eq_append_iff.mp hrest with ⟨mid, hxs, -⟩ | ⟨mid, hp, hys⟩
  · exact .inl ⟨mid, hxs.symm⟩
  · exact .inr ⟨mid, ⟨rest, hys.symm⟩, hp⟩

/-! ## The header block -/

theorem word_storeBlocks_of_le {j i : Nat} (hj : j ≤ i) (hb : Block) (lh : List Nat) :
    (storeBlocks hb i lh).word j = hb.word j := by
  induction lh generalizing hb i with
  | nil => rfl
  | cons b lh ih =>
    rw [storeBlocks, ih (by omega)]
    exact Bytes.word_setWord_ne (by omega) b

variable {lh : List Nat}

theorem word_storeBlocks {i k b : Nat} (hlen : i + lh.length < 256) (hk : lh[k]? = some b)
    (hb : Block) :
    (storeBlocks hb i lh).word (i + k + 1) = b % 2 ^ 32 := by
  induction lh generalizing hb i k with
  | nil => cases hk
  | cons x lh ih =>
    rw [List.length_cons] at hlen
    cases k with
    | zero =>
      obtain rfl : x = b := Option.some.inj hk
      rw [storeBlocks, word_storeBlocks_of_le (by omega)]
      exact Bytes.word_setWord (by show 4 * (i + 0 + 1) + 4 ≤ 1024; omega) x
    | succ k =>
      have hstep := @ih (i + 1) k (by omega) hk (hb.setWord (i + 1) x)
      rw [storeBlocks]
      rwa [show i + 1 + k + 1 = i + (k + 1) + 1 by omega] at hstep

theorem headN_headBlock (h : lh.length ≤ LOGSIZE) (hb : Block) :
    headN (headBlock hb lh) = lh.length := by
  have hsmall : lh.length ≤ 30 := h
  unfold headN headBlock
  rw [word_storeBlocks_of_le (Nat.le_refl 0), Bytes.word_setWord (by decide),
    Nat.mod_eq_of_lt (by omega), int32_of_range (by omega) (by omega)]

theorem headN_cleared (hb : Block) : headN (headBlock hb []) = 0 :=
  @headN_headBlock [] (Nat.zero_le _) hb

/-- What `write_head` stores, `read_head` reads back. -/
theorem readHead_headBlock (h : lh.length ≤ LOGSIZE) (hlt : ∀ b ∈ lh, b < 2 ^ 32) (hb : Block) :
    readHead (headBlock hb lh) = .ok lh := by
  have hsmall : lh.length ≤ 30 := h
  unfold readHead
  rw [headN_headBlock h, if_neg (by omega), Int.toNat_natCast]
  congr 1
  refine List.ext_getElem (by simp) fun k hk hk' => ?_
  rw [List.getElem_map, List.getElem_range, headBlock]
  have hword := word_storeBlocks (i := 0) (by omega) (List.getElem?_eq_getElem hk')
    (hb.setWord 0 lh.length)
  rw [Nat.zero_add] at hword
  rw [hword]
  exact Nat.mod_eq_of_lt (hlt _ (List.getElem_mem hk'))

theorem readHead_of_headN {hb : Block} (h : headN hb = 0) : readHead hb = .ok [] := by
  unfold readHead
  rw [h, if_neg (by decide)]
  rfl

/-! ## What the disk holds -/

/-- A list of block numbers that the log can name: there are log blocks for it, and all of it is
outside the log. -/
structure Fit (l : Log) (lh : List Nat) : Prop where
  size : lh.length ≤ LOGSIZE
  room : ∀ i, i < lh.length → ((i : Int) + 1 < l.size)
  outside : ∀ b ∈ lh, ¬ l.area b
  uint : ∀ b ∈ lh, b < 2 ^ 32

/-- Read through its log, the disk `d` holds the contents `new`. -/
structure Holds (l : Log) (lh : List Nat) (new d : Disk) : Prop where
  head : readHead (d l.start) = .ok lh
  logged : ∀ i b, lh[i]? = some b → d (l.start + i + 1) = new b
  home : ∀ b, ¬ l.area b → b ∉ lh → d b = new b

section Holds

variable {l : Log} {lh : List Nat} {new d : Disk}

theorem Fit.nil (l : Log) : Fit l [] :=
  ⟨Nat.zero_le _, fun _ h => absurd h (Nat.not_lt_zero _), fun _ h => (by cases h),
    fun _ h => (by cases h)⟩

theorem Fit.slot_area (hfit : Fit l lh) {i : Nat} (hi : i < lh.length) :
    l.area (l.start + i + 1) := by
  have hroom := hfit.room i hi
  right
  constructor
  · omega
  · push_cast
    omega

theorem Fit.ne_start (hfit : Fit l lh) {b : Nat} (hb : b ∈ lh) : b ≠ l.start :=
  fun he => hfit.outside b hb (.inl he)

/-- A write of a logged block's contents to its home changes nothing the disk holds. -/
theorem Holds.install (hfit : Fit l lh) (h : Holds l lh new d) {b : Nat} (hb : b ∈ lh) :
    Holds l lh new (update d b (new b)) := by
  refine ⟨?_, ?_, ?_⟩
  · rw [update_of_ne (hfit.ne_start hb).symm]
    exact h.head
  · intro i x hx
    have hne : l.start + i + 1 ≠ b := by
      rintro rfl
      exact hfit.outside _ hb (hfit.slot_area (List.getElem?_eq_some_iff.mp hx).1)
    rw [update_of_ne hne]
    exact h.logged i x hx
  · intro x hx hnot
    have hne : x ≠ b := by
      rintro rfl
      exact hnot hb
    rw [update_of_ne hne]
    exact h.home x hx hnot

/-- Installing keeps what the log holds. -/
theorem Holds.installs (hfit : Fit l lh) {ws : List Write} (h : Holds l lh new d)
    (hws : ∀ w ∈ ws, w.1 ∈ lh ∧ w.2 = new w.1) : Holds l lh new (d.apply ws) := by
  induction ws generalizing d with
  | nil => exact h
  | cons w ws ih =>
    obtain ⟨hmem, hval⟩ := hws w (List.mem_cons_self ..)
    rw [Disk.apply_cons, hval]
    exact ih (h.install hfit hmem) fun w' hw' => hws w' (List.mem_cons_of_mem _ hw')

/-- Once every logged block is home, clearing the header changes nothing the disk holds. -/
theorem Holds.clear (h : Holds l lh new d) (hhome : ∀ b ∈ lh, d b = new b) {hb : Block}
    (hclear : headN hb = 0) : Holds l [] new (update d l.start hb) := by
  refine ⟨?_, ?_, ?_⟩
  · rw [update_self]
    exact readHead_of_headN hclear
  · intro i b hi
    cases hi
  · intro b hb _
    have hne : b ≠ l.start := fun he => hb (.inl he)
    rw [update_of_ne hne]
    by_cases hmem : b ∈ lh
    · exact hhome b hmem
    · exact h.home b hb hmem

/-- While the header is empty, writes to the log blocks change nothing the disk holds. -/
theorem Holds.stage {ws : List Write} (h : Holds l [] new d)
    (hws : ∀ w ∈ ws, l.area w.1 ∧ w.1 ≠ l.start) : Holds l [] new (d.apply ws) := by
  refine ⟨?_, fun i b hi => (by cases hi), ?_⟩
  · rw [Disk.apply_of_notMem fun w hw => (hws w hw).2]
    exact h.head
  · intro b hb _
    have huntouched : ∀ w ∈ ws, w.1 ≠ b := by
      rintro w hw rfl
      exact hb (hws w hw).1
    rw [Disk.apply_of_notMem huntouched]
    exact h.home b hb List.not_mem_nil

/-- The writes of `install_trans` and of the `write_head` that follows it. -/
def clearing (l : Log) (lh : List Nat) (new : Disk) (hb : Block) : List Write :=
  lh.map (fun b => (b, new b)) ++ [(l.start, hb)]

/-- Every prefix of them leaves a disk that holds the same contents. -/
theorem Holds.clearing_part (hfit : Fit l lh) (h : Holds l lh new d) {hb : Block}
    (hclear : headN hb = 0) {p : List Write} (hp : p <+: clearing l lh new hb) :
    ∃ lh', Fit l lh' ∧ Holds l lh' new (d.apply p) := by
  have hlogged : ∀ w ∈ lh.map (fun b => (b, new b)), w.1 ∈ lh ∧ w.2 = new w.1 := by
    intro w hw
    obtain ⟨b, hb, rfl⟩ := List.mem_map.mp hw
    exact ⟨hb, rfl⟩
  rcases List.prefix_concat_iff.mp hp with rfl | hp
  · have hinstalled := h.installs hfit hlogged
    have hhome : ∀ b ∈ lh, d.apply (lh.map fun b => (b, new b)) b = new b := fun b hb =>
      Disk.apply_of_mem (fun w hw => (hlogged w hw).2) ⟨_, List.mem_map_of_mem hb, rfl⟩
    rw [Disk.apply_append]
    exact ⟨[], .nil l, hinstalled.clear hhome hclear⟩
  · exact ⟨lh, hfit, h.installs hfit fun w hw => hlogged w (hp.subset hw)⟩

/-- All of them leave the header empty and every home block with those contents. -/
theorem Holds.clearing_done (h : Holds l lh new d) {hb : Block}
    (hclear : headN hb = 0) :
    headN (d.apply (clearing l lh new hb) l.start) = 0 ∧
      ∀ b, ¬ l.area b → d.apply (clearing l lh new hb) b = new b := by
  rw [clearing, Disk.apply_append, Disk.apply_cons, Disk.apply_nil]
  refine ⟨?_, fun b hb => ?_⟩
  · rw [update_self]
    exact hclear
  · have hne : b ≠ l.start := fun he => hb (.inl he)
    rw [update_of_ne hne]
    by_cases hmem : b ∈ lh
    · refine Disk.apply_of_mem (fun w hw => ?_) ⟨_, List.mem_map_of_mem hmem, rfl⟩
      obtain ⟨x, -, rfl⟩ := List.mem_map.mp hw
      rfl
    · rw [Disk.apply_of_notMem]
      · exact h.home b hb hmem
      · intro w hw he
        obtain ⟨x, hx, rfl⟩ := List.mem_map.mp hw
        exact hmem (he ▸ hx)

end Holds

/-! ## The writes of the code -/

section Code

variable {l : Log} {lh : List Nat} {new : Disk} {s : Buffers} {tail : Nat}

theorem writeHead_writes (start : Nat) (lh : List Nat) (s : Buffers) :
    (writeHead start lh s).writes = s.writes ++ [(start, headBlock (s.cache start) lh)] := by
  simp only [writeHead, Buffers.bwrite, Buffers.modify, update_self]

theorem installTrans_writes (hfit : Fit l lh) {rest : List Nat} (hrest : ∀ b ∈ rest, b ∈ lh)
    (hroom : tail + rest.length ≤ lh.length)
    (hlogged : ∀ i b, rest[i]? = some b → s.cache (l.start + tail + i + 1) = new b) :
    (installTrans l.start tail rest s).writes = s.writes ++ rest.map fun b => (b, new b) := by
  induction rest generalizing tail s with
  | nil => exact (List.append_nil _).symm
  | cons b rest ih =>
    rw [List.length_cons] at hroom
    have hb : b ∈ lh := hrest b (List.mem_cons_self ..)
    have hval : s.cache (l.start + tail + 1) = new b := hlogged 0 b rfl
    rw [installTrans, ih (fun x hx => hrest x (List.mem_cons_of_mem _ hx)) (by omega)]
    · simp only [Buffers.bwrite, Buffers.modify, update_self, List.map_cons, hval,
        List.append_assoc, List.singleton_append]
    · intro i x hx
      have hin : i < rest.length := (List.getElem?_eq_some_iff.mp hx).1
      have harea := hfit.slot_area (show tail + 1 + i < lh.length by omega)
      have hne : l.start + (tail + 1) + i + 1 ≠ b := by
        intro he
        refine hfit.outside b hb (he ▸ ?_)
        rwa [show l.start + (tail + 1) + i + 1 = l.start + (tail + 1 + i) + 1 by omega]
      have hnext := hlogged (i + 1) x hx
      simp only [Buffers.bwrite, Buffers.modify, update_of_ne hne]
      rwa [show l.start + (tail + 1) + i + 1 = l.start + tail + (i + 1) + 1 by omega]

/-- The recovery of a disk restores what it holds. -/
theorem recover_writes (hfit : Fit l lh) {d : Disk} (h : Holds l lh new d) :
    ∃ r hb, recoverFromLog l.start (.boot d) = .ok r ∧ headN hb = 0 ∧
      r.writes = clearing l lh new hb := by
  have hhead : readHead ((Buffers.boot d).cache l.start) = .ok lh := h.head
  have hinstall : (installTrans l.start 0 lh (.boot d)).writes = lh.map fun b => (b, new b) :=
    installTrans_writes hfit (fun b hb => hb) (by omega) fun i b hi => h.logged i b hi
  refine ⟨writeHead l.start [] (installTrans l.start 0 lh (.boot d)), _, ?_,
    headN_cleared ((installTrans l.start 0 lh (.boot d)).cache l.start), ?_⟩
  · unfold recoverFromLog
    rw [hhead, ok_bind]
    rfl
  · rw [writeHead_writes, hinstall]
    rfl

/-- The blocks `write_log` fills from index `tail` on. -/
def logWrites (start tail : Nat) (lh : List Nat) (new : Disk) : List Write :=
  (lh.zipIdx tail).map fun x => (start + x.2 + 1, new x.1)

/-- `write_log` copies the blocks into the log. -/
theorem writeLog_spec (hfit : Fit l lh) {rest : List Nat} (hrest : ∀ b ∈ rest, b ∈ lh)
    (hroom : tail + rest.length ≤ lh.length) (hnew : ∀ b ∈ rest, s.cache b = new b) :
    (writeLog l.start tail rest s).writes = s.writes ++ logWrites l.start tail rest new ∧
      (∀ i b, rest[i]? = some b →
        (writeLog l.start tail rest s).cache (l.start + tail + i + 1) = new b) ∧
      ∀ b, b ≤ l.start + tail → (writeLog l.start tail rest s).cache b = s.cache b := by
  induction rest generalizing tail s with
  | nil => exact ⟨(List.append_nil _).symm, fun i b hi => (by cases hi), fun _ _ => rfl⟩
  | cons b rest ih =>
    rw [List.length_cons] at hroom
    have hval : s.cache b = new b := hnew b (List.mem_cons_self ..)
    have harea := hfit.slot_area (show tail < lh.length by omega)
    have hnext : ∀ x ∈ rest, ((s.modify (l.start + tail + 1) (s.cache b)).bwrite
        (l.start + tail + 1)).cache x = new x := by
      intro x hx
      have hne : x ≠ l.start + tail + 1 := by
        rintro rfl
        exact hfit.outside _ (hrest _ (List.mem_cons_of_mem _ hx)) harea
      simp only [Buffers.bwrite, Buffers.modify, update_of_ne hne]
      exact hnew x (List.mem_cons_of_mem _ hx)
    have hroom' : tail + 1 + rest.length ≤ lh.length := by omega
    obtain ⟨hwrites, hslots, hbelow⟩ :=
      ih (fun x hx => hrest x (List.mem_cons_of_mem _ hx)) hroom' hnext
    rw [writeLog]
    refine ⟨?_, ?_, ?_⟩
    · rw [hwrites]
      simp only [Buffers.bwrite, Buffers.modify, update_self, logWrites,
        List.zipIdx_cons, List.map_cons, hval, List.append_assoc, List.singleton_append]
    · intro i x hx
      cases i with
      | zero =>
        obtain rfl : b = x := Option.some.inj hx
        rw [Nat.add_zero, hbelow _ (by omega)]
        simp only [Buffers.bwrite, Buffers.modify, update_self, hval]
      | succ i =>
        have hslot := hslots i x hx
        rwa [show l.start + (tail + 1) + i + 1 = l.start + tail + (i + 1) + 1 by omega] at hslot
    · intro x hx
      have hne : x ≠ l.start + tail + 1 := by omega
      rw [hbelow x (by omega)]
      simp only [Buffers.bwrite, Buffers.modify, update_of_ne hne]

theorem mem_logWrites {start tail : Nat} {lh : List Nat} {new : Disk} {w : Write} :
    w ∈ logWrites start tail lh new ↔
      ∃ i b, lh[i]? = some b ∧ w = (start + (tail + i) + 1, new b) := by
  unfold logWrites
  rw [List.mem_map]
  constructor
  · rintro ⟨⟨b, k⟩, hmem, rfl⟩
    obtain ⟨hle, hget⟩ := List.mk_mem_zipIdx_iff_le_and_getElem?_sub.mp hmem
    exact ⟨k - tail, b, hget, by rw [Nat.add_sub_cancel' hle]⟩
  · rintro ⟨i, b, hget, rfl⟩
    refine ⟨(b, tail + i), ?_, rfl⟩
    rw [List.mk_mem_zipIdx_iff_le_and_getElem?_sub]
    exact ⟨Nat.le_add_right .., by rwa [Nat.add_sub_cancel_left]⟩

/-- The writes of a commit: the log blocks, the header, and then the same as in a recovery. -/
theorem commit_writes {l : Log} {cache : Disk} (hfit : Fit l l.lh) (hne : 0 < l.lh.length)
    (hnew : ∀ b ∈ l.lh, cache b = new b) :
    ∃ hb hb', headN hb = 0 ∧ (commit l ⟨cache, []⟩).2.writes =
      logWrites l.start 0 l.lh new ++ (l.start, headBlock hb' l.lh) ::
        clearing l l.lh new hb := by
  have hroom : 0 + l.lh.length ≤ l.lh.length := by omega
  obtain ⟨hlog, hslots, -⟩ := writeLog_spec (s := ⟨cache, []⟩) hfit (fun b hb => hb) hroom hnew
  set s₁ := writeLog l.start 0 l.lh ⟨cache, []⟩ with hs₁
  set s₂ := writeHead l.start l.lh s₁ with hs₂
  have hcache : ∀ i b, l.lh[i]? = some b → s₂.cache (l.start + 0 + i + 1) = new b := by
    intro i b hi
    rw [← hslots i b hi]
    exact update_of_ne (by omega) ..
  have hinstall : (installTrans l.start 0 l.lh s₂).writes =
      s₂.writes ++ l.lh.map fun b => (b, new b) :=
    installTrans_writes hfit (fun b hb => hb) hroom hcache
  refine ⟨_, s₁.cache l.start,
    headN_cleared ((installTrans l.start 0 l.lh s₂).cache l.start), ?_⟩
  unfold commit
  rw [if_pos hne]
  show (writeHead l.start [] (installTrans l.start 0 l.lh s₂)).writes = _
  rw [writeHead_writes, hinstall, hs₂, writeHead_writes, hlog, clearing]
  simp only [List.nil_append, List.append_assoc, List.cons_append]

end Code

/-! ## What `log_write` records -/

section Record

variable {l l' : Log} {s s' : Buffers} {changes : List (Fin (2 ^ 32) × Block)}

/-- When `log_write` goes through, and what it does. -/
theorem logWrite_ok {b : Nat} (h : logWrite l b = .ok l') :
    l.lh.length < LOGSIZE ∧ (l.lh.length : Int) + 1 < l.size ∧ 1 ≤ l.outstanding ∧
      (b ∈ l.lh ∧ l' = l ∨ b ∉ l.lh ∧ l' = { l with lh := l.lh ++ [b] }) := by
  unfold logWrite at h
  split at h
  · cases h
  · rename_i hroom
    rw [not_or] at hroom
    split at h
    · cases h
    · rename_i hout
      refine ⟨by omega, by omega, by omega, ?_⟩
      split at h
      · rename_i hmem
        cases h
        exact .inl ⟨hmem, rfl⟩
      · rename_i hmem
        cases h
        exact .inr ⟨hmem, rfl⟩

theorem record_cons {b : Fin (2 ^ 32)} {data : Block}
    (h : record l s ((b, data) :: changes) = .ok (l', s')) :
    ∃ l₁, logWrite l b = .ok l₁ ∧ record l₁ (s.modify b data) changes = .ok (l', s') := by
  unfold record at h
  cases hw : logWrite l b with
  | error f =>
    rw [hw] at h
    cases h
  | ok l₁ =>
    rw [hw] at h
    exact ⟨l₁, rfl, h⟩

/-- What a transaction records: the same log area, a header that names exactly the changed blocks
(beside what it named before), and a cache that has the changes. -/
theorem record_spec (h : record l s changes = .ok (l', s')) :
    l'.start = l.start ∧ l'.size = l.size ∧
      (∀ b, b ∈ l'.lh ↔ b ∈ l.lh ∨ ∃ w ∈ changes, (w.1 : Nat) = b) ∧
      s'.cache = s.cache.apply (changes.map fun w => ((w.1 : Nat), w.2)) := by
  induction changes generalizing l s with
  | nil =>
    cases h
    refine ⟨rfl, rfl, fun b => ?_, rfl⟩
    simp only [List.not_mem_nil, false_and, exists_false, or_false]
  | cons w changes ih =>
    obtain ⟨l₁, hw, hrest⟩ := record_cons h
    obtain ⟨-, -, -, hlh⟩ := logWrite_ok hw
    obtain ⟨hstart, hsize, hmem, hcache⟩ := ih hrest
    have hl₁ : l₁.start = l.start ∧ l₁.size = l.size ∧
        ∀ b, b ∈ l₁.lh ↔ b ∈ l.lh ∨ (w.1 : Nat) = b := by
      rcases hlh with ⟨hin, rfl⟩ | ⟨-, rfl⟩
      · refine ⟨rfl, rfl, fun b => ⟨.inl, ?_⟩⟩
        rintro (hb | rfl)
        · exact hb
        · exact hin
      · refine ⟨rfl, rfl, fun b => ?_⟩
        rw [List.mem_append, List.mem_singleton, eq_comm]
    refine ⟨hstart.trans hl₁.1, hsize.trans hl₁.2.1, fun b => ?_, hcache⟩
    rw [hmem, hl₁.2.2, or_assoc]
    simp only [List.mem_cons, exists_eq_or_imp]

/-- There is a log block for every block number a transaction has recorded. -/
theorem record_room (h : record l s changes = .ok (l', s')) (hsize : l.lh.length ≤ LOGSIZE)
    (hroom : ∀ i, i < l.lh.length → (i : Int) + 1 < l.size) :
    l'.lh.length ≤ LOGSIZE ∧ ∀ i, i < l'.lh.length → (i : Int) + 1 < l.size := by
  induction changes generalizing l s with
  | nil =>
    cases h
    exact ⟨hsize, hroom⟩
  | cons w changes ih =>
    obtain ⟨l₁, hw, hrest⟩ := record_cons h
    obtain ⟨hlt, hfree, -, hlh⟩ := logWrite_ok hw
    rcases hlh with ⟨-, rfl⟩ | ⟨-, rfl⟩
    · exact ih hrest hsize hroom
    · have hlen : (l.lh ++ [(w.1 : Nat)]).length = l.lh.length + 1 := List.length_append
      have hnext : ∀ i, i < (l.lh ++ [(w.1 : Nat)]).length → (i : Int) + 1 < l.size := by
        intro i hi
        omega
      have hsize' : (l.lh ++ [(w.1 : Nat)]).length ≤ LOGSIZE := by omega
      exact @ih { l with lh := l.lh ++ [(w.1 : Nat)] } _ hrest hsize' hnext

end Record

/-! ## Crashes -/

/-- The disk after any number of recoveries, each cut short after a prefix of its writes. -/
inductive Rebooted (start : Nat) (d : Disk) : Disk → Prop
  | nil : Rebooted start d d
  | crash {d' : Disk} {r : Buffers} {p : List Write} :
      Rebooted start d d' → recoverFromLog start (.boot d') = .ok r → p <+: r.writes →
      Rebooted start d (d'.apply p)

/-- Reboots keep what the log holds. -/
theorem Rebooted.holds {l : Log} {new d d' : Disk} (h : Rebooted l.start d d') (hfit : Fit l lh)
    (hd : Holds l lh new d) :
    ∃ lh', Fit l lh' ∧ Holds l lh' new d' := by
  induction h with
  | nil => exact ⟨lh, hfit, hd⟩
  | crash _ hr hp ih =>
    obtain ⟨lh', hfit', hd'⟩ := ih
    obtain ⟨r', hb, hr', hclear, hwrites⟩ := recover_writes hfit' hd'
    obtain rfl := Except.ok.inj (hr'.symm.trans hr)
    rw [hwrites] at hp
    exact hd'.clearing_part hfit' hclear hp

/-- A completed recovery, after any number cut short, restores what the disk held. -/
theorem Rebooted.recovers {l : Log} {new d d' : Disk} (h : Rebooted l.start d d') (hfit : Fit l lh)
    (hd : Holds l lh new d) :
    ∃ r, recoverFromLog l.start (.boot d') = .ok r ∧ headN (d'.apply r.writes l.start) = 0 ∧
      ∀ b, ¬ l.area b → d'.apply r.writes b = new b := by
  obtain ⟨lh', hfit', hd'⟩ := h.holds hfit hd
  obtain ⟨r, hb, hr, hclear, hwrites⟩ := recover_writes hfit' hd'
  obtain ⟨hhead, hhome⟩ := hd'.clearing_done hclear
  rw [← hwrites] at hhead hhome
  exact ⟨r, hr, hhead, hhome⟩

section Commit

variable {l : Log} {lh : List Nat} {new d : Disk}

theorem logWrites_area (hfit : Fit l lh) {w : Write} (hw : w ∈ logWrites l.start 0 lh new) :
    l.area w.1 ∧ w.1 ≠ l.start := by
  obtain ⟨i, b, hi, rfl⟩ := mem_logWrites.mp hw
  rw [Nat.zero_add]
  exact ⟨hfit.slot_area (List.getElem?_eq_some_iff.mp hi).1, by omega⟩

/-- The header write of a commit takes the disk from the old contents to the new ones. -/
theorem Holds.commit {old : Disk} (hfit : Fit l lh) (h : Holds l [] old d)
    (hsame : ∀ b, ¬ l.area b → b ∉ lh → old b = new b) (hb : Block) :
    Holds l lh new
      (update (d.apply (logWrites l.start 0 lh new)) l.start (headBlock hb lh)) := by
  refine ⟨?_, ?_, ?_⟩
  · rw [update_self]
    exact readHead_headBlock hfit.size hfit.uint hb
  · intro i b hi
    -- the log blocks are all different, so each holds what the list gives for its own index
    let slots : Disk := fun x => new (lh[x - l.start - 1]?.getD 0)
    have hslots : ∀ w ∈ logWrites l.start 0 lh new, w.2 = slots w.1 := by
      intro w hw
      obtain ⟨k, x, hk, rfl⟩ := mem_logWrites.mp hw
      show new x = new (lh[l.start + (0 + k) + 1 - l.start - 1]?.getD 0)
      rw [show l.start + (0 + k) + 1 - l.start - 1 = k by omega, hk, Option.getD_some]
    have hmem : ∃ w ∈ logWrites l.start 0 lh new, w.1 = l.start + i + 1 :=
      ⟨_, mem_logWrites.mpr ⟨i, b, hi, rfl⟩, by rw [Nat.zero_add]⟩
    rw [update_of_ne (by omega), Disk.apply_of_mem hslots hmem]
    show new (lh[l.start + i + 1 - l.start - 1]?.getD 0) = new b
    rw [show l.start + i + 1 - l.start - 1 = i by omega, hi, Option.getD_some]
  · intro b hb' hnot
    have hne : b ≠ l.start := fun he => hb' (.inl he)
    rw [update_of_ne hne]
    exact ((h.stage fun w hw => logWrites_area hfit hw).home b hb' List.not_mem_nil).trans
      (hsame b hb' hnot)

/-- Every prefix of a commit's writes leaves a disk that holds the old contents, or, from the
header write on, the new ones. -/
theorem commit_prefix {l : Log} {cache old new : Disk} (hfit : Fit l l.lh)
    (h : Holds l [] old d) (hnew : ∀ b ∈ l.lh, cache b = new b)
    (hsame : ∀ b, ¬ l.area b → b ∉ l.lh → old b = new b) {p : List Write}
    (hp : p <+: (commit l ⟨cache, []⟩).2.writes) :
    ∃ lh, Fit l lh ∧
      ((∃ w ∈ p, w.1 = l.start) → Holds l lh new (d.apply p)) ∧
      ((¬ ∃ w ∈ p, w.1 = l.start) → Holds l lh old (d.apply p)) := by
  have hstaged : ∀ q, q <+: logWrites l.start 0 l.lh new →
      (¬ ∃ w ∈ q, w.1 = l.start) ∧ Holds l [] old (d.apply q) := by
    intro q hq
    refine ⟨?_, h.stage fun w hw => logWrites_area hfit (hq.subset hw)⟩
    rintro ⟨w, hw, he⟩
    exact (logWrites_area hfit (hq.subset hw)).2 he
  have hbefore : ∀ q, q <+: logWrites l.start 0 l.lh new → p = q → ∃ lh, Fit l lh ∧
      ((∃ w ∈ p, w.1 = l.start) → Holds l lh new (d.apply p)) ∧
      ((¬ ∃ w ∈ p, w.1 = l.start) → Holds l lh old (d.apply p)) := by
    rintro q hq rfl
    exact ⟨[], .nil l, fun hw => absurd hw (hstaged _ hq).1, fun _ => (hstaged _ hq).2⟩
  by_cases hne : 0 < l.lh.length
  · obtain ⟨hb, hb', hclear, hwrites⟩ := commit_writes hfit hne hnew
    rw [hwrites] at hp
    rcases prefix_append_cases hp with hp | ⟨q, hq, rfl⟩
    · exact hbefore p hp rfl
    · rcases List.prefix_cons_iff.mp hq with rfl | ⟨q', rfl, hq'⟩
      · exact hbefore _ (List.prefix_refl _) (List.append_nil _)
      · obtain ⟨lh, hfit', hheld⟩ :=
          (h.commit hfit hsame hb').clearing_part hfit hclear hq'
        refine ⟨lh, hfit', fun _ => ?_, fun hno => ?_⟩
        · rw [Disk.apply_append, Disk.apply_cons]
          exact hheld
        · exact absurd ⟨_, List.mem_append_right _ (List.mem_cons_self ..), rfl⟩ hno
  · have hnil : (commit l ⟨cache, []⟩).2.writes = [] := by
      unfold commit
      rw [if_neg hne]
    rw [hnil, List.prefix_nil] at hp
    exact hbefore [] (List.nil_prefix) hp

end Commit

/-- **A commit is atomic under crashes.** Take a disk whose log is empty, a transaction recorded
by `log_write` outside the log, a crash after any prefix `p` of the block writes of `commit`, and
any number of recoveries cut short. The next recovery completes. It leaves the header empty and
every home block with its new contents if the first header write is in `p`, and every home block
with its old contents if it is not. -/
theorem commit_crash_atomic {l l' : Log} {d d' : Disk} {s s' : Buffers}
    {changes : List (Fin (2 ^ 32) × Block)} {p : List Write}
    (hempty : headN (d l.start) = 0) (hlh : l.lh = [])
    (hout : ∀ w ∈ changes, ¬ l.area w.1) (hrecord : record l s changes = .ok (l', s'))
    (hp : p <+: (commit l' ⟨s'.cache, []⟩).2.writes)
    (hcrash : Rebooted l.start (d.apply p) d') :
    ∃ r, recoverFromLog l.start (.boot d') = .ok r ∧
      headN (d'.apply r.writes l.start) = 0 ∧
      ((∃ w ∈ p, w.1 = l.start) → ∀ b, ¬ l.area b →
        d'.apply r.writes b = d.apply (changes.map fun w => ((w.1 : Nat), w.2)) b) ∧
      ((¬ ∃ w ∈ p, w.1 = l.start) → ∀ b, ¬ l.area b → d'.apply r.writes b = d b) := by
  obtain ⟨hstart, hsize, hmem, hcache⟩ := record_spec hrecord
  have hnone : ∀ i, i < l.lh.length → (i : Int) + 1 < l.size := by
    intro i hi
    rw [hlh] at hi
    exact absurd hi (Nat.not_lt_zero i)
  obtain ⟨hlen, hroom⟩ := record_room hrecord (by rw [hlh]; exact Nat.zero_le _) hnone
  have harea : ∀ b, l'.area b ↔ l.area b := by
    intro b
    unfold Log.area
    rw [hstart, hsize]
  have hrecorded : ∀ b, b ∈ l'.lh ↔ ∃ w ∈ changes, (w.1 : Nat) = b := by
    intro b
    rw [hmem, hlh]
    simp only [List.not_mem_nil, false_or]
  have hwritten : ∀ b, b ∈ l'.lh →
      ∃ w ∈ changes.map (fun w => ((w.1 : Nat), w.2)), w.1 = b := by
    intro b hb
    obtain ⟨w, hw, he⟩ := (hrecorded b).mp hb
    exact ⟨_, List.mem_map_of_mem hw, he⟩
  have hfit : Fit l' l'.lh := by
    refine ⟨hlen, fun i hi => hsize ▸ hroom i hi, fun b hb => ?_, fun b hb => ?_⟩
    · obtain ⟨w, hw, rfl⟩ := (hrecorded b).mp hb
      rw [harea]
      exact hout w hw
    · obtain ⟨w, -, rfl⟩ := (hrecorded b).mp hb
      exact w.1.isLt
  have hold : Holds l' [] d d :=
    ⟨by rw [hstart]; exact readHead_of_headN hempty, fun i b hi => (by cases hi), fun _ _ _ => rfl⟩
  have hnew : ∀ b ∈ l'.lh, s'.cache b = d.apply (changes.map fun w => ((w.1 : Nat), w.2)) b := by
    intro b hb
    rw [hcache]
    exact Disk.apply_congr_of_mem _ _ (hwritten b hb)
  have hsame : ∀ b, ¬ l'.area b → b ∉ l'.lh →
      d b = d.apply (changes.map fun w => ((w.1 : Nat), w.2)) b := by
    intro b _ hb
    refine (Disk.apply_of_notMem fun w hw he => hb ?_).symm
    obtain ⟨x, hx, rfl⟩ := List.mem_map.mp hw
    exact (hrecorded b).mpr ⟨x, hx, he⟩
  obtain ⟨lh, hfit', hafter, hbefore⟩ := commit_prefix hfit hold hnew hsame hp
  rw [← hstart] at hcrash ⊢
  by_cases hw : ∃ w ∈ p, w.1 = l'.start
  · obtain ⟨r, hr, hhead, hhome⟩ := hcrash.recovers hfit' (hafter hw)
    refine ⟨r, hr, hhead, fun _ b hb => hhome b ?_, fun hno => absurd hw hno⟩
    rwa [harea]
  · obtain ⟨r, hr, hhead, hhome⟩ := hcrash.recovers hfit' (hbefore hw)
    refine ⟨r, hr, hhead, fun hyes => absurd hyes hw, fun _ b hb => hhome b ?_⟩
    rwa [harea]

/-- A disk of zeroes, and its block 40 filled with ones in the cache. -/
def onesAt40 : Disk := update (fun _ _ => 0) 40 fun _ => 1

/-- A commit of that block on a `mkfs` image, cut after the header write: the recovery brings the
ones home. -/
theorem commit_crash_atomic_one :
    ∃ r, recoverFromLog 2 (.boot (Disk.apply (fun _ _ => 0)
        ((commit { beginOp mkfsLog with lh := [40] } ⟨onesAt40, []⟩).2.writes.take 2))) = .ok r ∧
      (Disk.apply (fun _ _ => 0)
        ((commit { beginOp mkfsLog with lh := [40] } ⟨onesAt40, []⟩).2.writes.take 2)).apply
          r.writes 40 = fun _ => 1 := by
  have hrecord : record (beginOp mkfsLog) (.boot fun _ _ => 0) [(⟨40, by norm_num⟩, fun _ => 1)] =
      .ok ({ beginOp mkfsLog with lh := [40] }, ⟨onesAt40, []⟩) := rfl
  have hout : ∀ w ∈ [((⟨40, by norm_num⟩ : Fin (2 ^ 32)), (fun _ => 1 : Block))],
      ¬ (beginOp mkfsLog).area w.1 := by
    intro w hw
    obtain rfl := List.mem_singleton.mp hw
    decide
  obtain ⟨r, hr, -, hnew, -⟩ := commit_crash_atomic (d := fun _ _ => 0) (by decide +kernel) rfl
    hout hrecord (List.take_prefix 2 _) .nil
  refine ⟨r, hr, (hnew ?_ 40 (by decide)).trans ?_⟩
  · exact ⟨_, List.mem_cons_of_mem _ (List.mem_cons_self ..), rfl⟩
  · rw [List.map_singleton, Disk.apply_cons, Disk.apply_nil]
    exact update_self ..

end Xv6.Fs
