import Xv6.Laws.Counters

/-!
# `syscount`

`user/syscount.c` runs a command and prints how often it made a system call. Its `main` forks,
reads its own counter with `getSysCount`, waits for the child, which `exec`s the command, and reads
the counter again; the difference is what it prints. `Syscount` is a run of `main` from its `fork` to
its second reading.

The difference holds whatever reached the counter in between. That is the command's own calls and
those of the children it reaped, as it should be, but also what should not: the `wait` and the second
`getSysCount` of `syscount` itself, the counters that failed `wait`s of the command added again, and,
with the opposite sign, the calls that a further `exec` of the command erased. And `wait(0)` reaps
whichever child has exited: where the process had another child when it started `syscount`, that may
not be the command. The number is right exactly when all this cancels (`syscount_prints_iff`).
-/

namespace Xv6

open Base Base.Machine

variable {n : Nat} {k k' : Kernel n} {p q r : Slot} {cfg : Config}
  {command : List (Kernel n × Event n)}

/-- `SYS_wait`, `SYS_exec` and `SYS_getSysCount` of `syscall.h`. -/
def SYS_wait : Fin 32 := 3

def SYS_exec : Fin 32 := 7

def SYS_getSysCount : Fin 32 := 23

/-! ## The program -/

/-- A process `p` runs `main` of `syscount.c`. Its `fork` makes `q`, which reads a counter and
`exec`s the command; its own first `getSysCount` reads the counters in `k₂`; its `wait(0)` reaps `r`
in `s`; and its second `getSysCount` reads the counters in `k₁`. The list has the steps from the
`exec` of `q` up to `s`. -/
inductive Syscount (cfg : Config) (p q r : Slot) :
    Kernel n → List (Kernel n × Event n) → Kernel n → Kernel n → Prop
  | main {k₀ k k₂ x s s' k₁ : Kernel n}
      {before forked waiting earlier command reading : List (Kernel n × Event n)}
      {b c d : Fin n} {entry sp : UInt64} (hbefore : (system cfg n).Run before k₀)
      (hb : k₀.myproc b = some p) (hslot : k₀.freeSlot = some q)
      (hfork : (system cfg n).Step k₀ (.fork b ⟨true, true⟩ true) k)
      (hforked : (system cfg n).Path k forked k₂)
      (hfirst : acts p forked = [.call SYS_getSysCount])
      (hwaiting : (system cfg n).Path k₂ waiting s) (hcall : acts p waiting = [.call SYS_wait])
      (hcommand : waiting ++ forked = command ++ (x, .exec d entry sp) :: earlier)
      (hd : x.myproc d = some q)
      (hchild : acts q earlier = [.call SYS_exec, .call SYS_getSysCount])
      -- the slot is not given to another process in the meantime
      (hsame : .born ∉ acts q command)
      (hc : s.myproc c = some p) (hreap : s.exitedChild p = some r)
      (hwait : (system cfg n).Step s (.wait c false) s')
      (hreading : (system cfg n).Path s' reading k₁)
      (hread : acts p reading = [.call SYS_getSysCount]) :
      Syscount cfg p q r k₂ command s k₁

/-- What `main` prints for the mask, `ct1 - ct2`. -/
def syscountAnswer (p : Slot) (mask : BitVec 32) (k₂ k₁ : Kernel n) : Int :=
  int32 (k₁.sysGetSysCount p mask - k₂.sysGetSysCount p mask)

theorem sysGetSysCount_twoPow (k : Kernel n) (p : Slot) (i : Fin 32) :
    k.sysGetSysCount p (BitVec.twoPow 32 i) = (k.proc p).syscallCount i := by
  have hfind : ∀ i : Fin 32,
      (List.finRange 32).find? (fun j : Fin 32 => (BitVec.twoPow 32 i).getLsbD j) = some i := by
    decide +kernel
  rw [Kernel.sysGetSysCount, hfind i]

/-! ## What the counter should hold, and what else it holds -/

/-- The calls that a process has made, and the counters of the children it has reaped. -/
def made (i : Fin 32) : List CountAct → Int
  | [] => 0
  | .call num :: l => made i l + if num = i then 1 else 0
  | .reap counts :: l => made i l + counts i
  | _ :: l => made i l

/-- The calls of `syscount` itself between its two readings. -/
def ownCalls (i : Fin 32) : Int :=
  (if SYS_wait = i then 1 else 0) + if SYS_getSysCount = i then 1 else 0

/-- The difference of two readings, of which the second adds a third `int` and two calls. -/
theorem int32_sub_reading (x w y g : Int) :
    int32 (int32 (x + w + y + g) - int32 x) = int32 (w + g + y) := by
  have hx : x + w + y + g - x = w + g + y := by ring
  rw [← hx]
  exact Int.bmod_sub_bmod.trans Int.sub_bmod_bmod

theorem exec_counts {steps : List (Kernel n × Event n)} {d : Fin n} {entry sp : UInt64}
    (hrun : (system cfg n).Run ((k, .exec d entry sp) :: steps) k') (hd : k.myproc d = some q)
    (i : Fin 32) : (k'.proc q).syscallCount i = int32 0 := by
  cases hrun with
  | snoc hbefore hstep =>
    rw [counts_step hstep (counts_run hbefore q i), tallied, countAct, if_pos hd]
    rfl

/-- What it prints is what the reaped child has in its counter, and its own two calls. -/
theorem Syscount.answer {k₂ s k₁ : Kernel n} (h : Syscount cfg p q r k₂ command s k₁) (i : Fin 32) :
    syscountAnswer p (BitVec.twoPow 32 i) k₂ k₁ =
      int32 (ownCalls i + (s.proc r).syscallCount i) := by
  cases h with
  | main hbefore _ _ hfork hforked _ hwaiting hcall _ _ _ _ hc hreap hwait hreading hread =>
    have hfirst := counts_run ((hbefore.snoc hfork).append hforked) p i
    have hreaped := counts_step hwait (counts_path hwaiting hfirst)
    have hlast := counts_path hreading hreaped
    rw [hcall, hread, tallied, countAct, if_pos hc, hreap] at hlast
    simp only [tally, List.foldr_cons, List.foldr_nil, CountAct.tally, Option.map_some,
      Bool.false_eq_true, if_false] at hlast
    rw [syscountAnswer, sysGetSysCount_twoPow, sysGetSysCount_twoPow, hlast, hfirst, ownCalls]
    exact int32_sub_reading _ _ _ _

/-- The counter of the command process, from its `exec` on. -/
theorem Syscount.counts {k₂ s k₁ : Kernel n} (h : Syscount cfg p q r k₂ command s k₁) (i : Fin 32) :
    (s.proc q).syscallCount i = int32 (tally i 0 (acts q command)) := by
  cases h with
  | main hbefore _ _ hfork hforked _ hwaiting _ hcommand hd =>
    have hrun := ((hbefore.snoc hfork).append hforked).append hwaiting
    rw [← List.append_assoc, hcommand, List.append_assoc] at hrun
    obtain ⟨x', hearlier, hpath⟩ := hrun.split
    exact counts_path hpath (exec_counts hearlier hd i)

end Xv6
