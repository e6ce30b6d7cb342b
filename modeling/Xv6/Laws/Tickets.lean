import Xv6.Laws.Alarm
import Xv6.Laws.Lottery

/-!
# Tickets of a new process

`allocproc` means to give a new process its parent's tickets, and reads them through `p->parent`. A
slot that is free has no parent: `freeproc` clears the pointer, and `fork` sets it only after
`allocproc` has returned. So every child starts with one ticket, whatever its parent holds, and it
keeps it until it is published. A family has the ticket count of its ancestor exactly when that is
one, until somebody calls `settickets`.
-/

namespace Xv6

open Base Base.Machine

variable {n : Nat} {k k' : Kernel n} {p np q : Slot} {c : Fin n} {cfg : Config} {e : Event n}

/-! ## Free slots have no parent -/

/-- A record that is free has no parent. -/
def Proc.Parentless (x : Proc) : Prop := x.state = .unused → x.parent = none

/-- A free slot has no parent. -/
def Parentless (k : Kernel n) : Prop := ∀ x, (k.proc x).Parentless

/-- `reparent` gives new parents only to slots that have one, and `fork` to a slot in use. -/
theorem parentless_lasting : Lasting fun x x' => x.Parentless → x'.Parentless where
  refl _ := id
  trans _ _ _ h h' hx := h' (h hx)
  queue _ _ _ := id
  move x s chan hs _ hx := by
    change s = .unused at hx
    rw [hx] at hs
    cases hs
  tidy _ := id
  context _ _ _ := id
  kernelFrame _ _ _ _ _ := id
  trapframe _ _ := id
  rtime _ _ := id
  reparent _ _ hparent h hx := absurd (h hx) hparent
  publish _ _ _ := nofun
  own _ _ _ _ _ _ _ _ _ _ := id
  claim _ _ _ hused _ _ hx := by
    rw [hused] at hx
    cases hx
  free _ _ _ := rfl
  leave _ _ _ _ := nofun

theorem parentless_reachable (h : (system cfg n).Reachable k) : Parentless k :=
  h.invariant (fun _ _ => rfl) fun s e _ hs hstep x =>
    (parentless_lasting.exec cfg s e fun _ _ => id).of_ok hstep.2 x (hs x)

/-! ## Who changes tickets -/

/-- What an event does to the tickets in the slot `x`. -/
inductive TicketStep (k : Kernel n) (e : Event n) (k' : Kernel n) (x : Slot) : Prop
  | kept (ht : (k'.proc x).tickets = (k.proc x).tickets)
      (hu : (k'.proc x).state = .used → (k.proc x).state = .used)
  | given (hfree : (k.proc x).state = .unused) (ht : (k'.proc x).tickets = 1)
  | set (c : Fin n) (t : Int) (he : e = .settickets c t) (hc : k.myproc c = some x)

/-- `p->parent` is null when `allocproc` reads it. -/
theorem Parentless.inherited (h : Parentless k) (hslot : k.freeSlot = some p) : k.inherited p = 1 := by
  unfold Kernel.inherited
  rw [h p (freeSlot_unused hslot)]

theorem ticket_step (h : Parentless k) (hs : (system cfg n).Step k e k') (x : Slot) :
    TicketStep k e k' x := by
  obtain ⟨o, ho, hstep⟩ := own_step hs x
  have ht : (k'.proc x).tickets = o.tickets := congrArg Own.tickets ho
  cases hstep with
  | kept hk => exact .kept ht hk.used
  | exited c status _ hstate =>
    refine .kept ht fun hu => ?_
    rw [hstate] at hu
    cases hu
  | fresh t hslot hone =>
    refine .given (freeSlot_unused hslot) (ht.trans ?_)
    rw [h.inherited hslot, or_self] at hone
    exact hone
  | wrote hw hused _ =>
    cases hw with
    | settickets c t hc => exact .set c t rfl hc
    | _ => exact .kept ht hused

/-- A child that has not been published has one ticket. -/
def UsedHasOne (k : Kernel n) : Prop := ∀ x, (k.proc x).state = .used → (k.proc x).tickets = 1

theorem usedHasOne_step (hinv : Inv k) (hp : Parentless k) (h : UsedHasOne k)
    (hs : (system cfg n).Step k e k') : UsedHasOne k' := by
  intro x hx
  cases ticket_step hp hs x with
  | kept ht hu => exact ht.trans (h x (hu hx))
  | given _ ht => exact ht
  | set c t he hc =>
    -- the process that calls `settickets` runs, and still does
    subst he
    have hrun := hinv.harts.current c x hc
    have hused : (k.proc x).state = .used := by
      cases owned_step hs with
      | keeps he _ => cases he
      | counted c p he _ _ => cases he
      | settickets c t p hc' ht =>
        rw [hc] at hc'
        cases hc'
        exact ht.used hx
    rw [hrun] at hused
    cases hused

theorem usedHasOne_reachable (h : (system cfg n).Reachable k) : UsedHasOne k := by
  have hboth : (system cfg n).Reachable k ∧ UsedHasOne k := by
    refine ⟨h, ?_⟩
    obtain ⟨steps, hrun⟩ := h
    induction hrun with
    | nil =>
      intro x hx
      cases hx
    | snoc hrun hs ih =>
      exact usedHasOne_step (inv_reachable ⟨_, hrun⟩) (parentless_reachable ⟨_, hrun⟩) ih hs
  exact hboth.2

/-! ## `fork` -/

/-- The process `p` is inside `fork`, with the child `np`. -/
def Forking (k : Kernel n) (p np : Slot) : Prop :=
  (k.proc p).state.ready = true ∧ (k.proc p).context = .forking np

/-- A call of `fork` by `p` that starts in `k` and has published its child `np` in `k'`. -/
def ForkCall (cfg : Config) (k : Kernel n) (p np : Slot) (k' : Kernel n) : Prop :=
  ∃ (c₁ c₂ : Fin n) (a : Alloc) (uvmcopy : Bool) (k₁ k₂ : Kernel n)
    (steps : List (Kernel n × Event n)),
    k.myproc c₁ = some p ∧ (system cfg n).Step k (.fork c₁ a uvmcopy) k₁ ∧
      (system cfg n).Path k₁ steps k₂ ∧ (∀ s ∈ steps, Forking s.1 p np) ∧ Forking k₂ p np ∧
      k₂.myproc c₂ = some p ∧ (system cfg n).Step k₂ (.forkEnd c₂) k'

theorem published_tickets (hreach : (system cfg n).Reachable k) (h : Forking k p np)
    (hs : (system cfg n).Step k (.forkEnd c) k') : (k'.proc np).tickets = 1 := by
  have hused : (k.proc np).state = .used := (inv_reachable hreach).threads.forking p np h.1 h.2
  cases ticket_step (parentless_reachable hreach) hs np with
  | kept ht _ => exact ht.trans (usedHasOne_reachable hreach np hused)
  | given hfree _ =>
    rw [hused] at hfree
    cases hfree
  | set c t he hc => cases he

theorem ForkCall.tickets_iff (hreach : (system cfg n).Reachable k) (h : ForkCall cfg k p np k') :
    (k'.proc np).tickets = (k.proc p).tickets ↔ (k.proc p).tickets = 1 := by
  obtain ⟨c₁, c₂, a, uvmcopy, k₁, k₂, steps, -, hfork, hpath, -, hend, -, hs⟩ := h
  rw [published_tickets ((hreach.step hfork).path hpath) hend hs]
  exact eq_comm

/-! ## Families -/

/-- The members of a family after an event: those whose slots have not been freed, and the child that
a member publishes. -/
def kin (S : Slot → Prop) (k : Kernel n) (e : Event n) (k' : Kernel n) (q : Slot) : Prop :=
  (k'.proc q).state ≠ .unused ∧
    (S q ∨ ∃ c p, S p ∧ e = .forkEnd c ∧ k.myproc c = some p ∧ (k.proc p).context = .forking q)

/-- The family of the process in slot `a` along a run from `k₀` in which no member calls
`settickets`. -/
inductive Lineage (cfg : Config) (a : Slot) (k₀ : Kernel n) : (Slot → Prop) → Kernel n → Prop
  | start : Lineage cfg a k₀ (fun q => q = a) k₀
  | step {S : Slot → Prop} {k k' : Kernel n} {e : Event n} (h : Lineage cfg a k₀ S k)
      (hs : (system cfg n).Step k e k')
      (hno : ∀ c t p, e = .settickets c t → k.myproc c = some p → ¬ S p) :
      Lineage cfg a k₀ (kin S k e k') k'

theorem Lineage.tickets {a : Slot} {k₀ : Kernel n} {S : Slot → Prop} (h : Lineage cfg a k₀ S k)
    (hreach : (system cfg n).Reachable k₀) (ha : (k₀.proc a).state ≠ .unused)
    (hone : (k₀.proc a).tickets = 1) :
    (system cfg n).Reachable k ∧
      ∀ q, S q → (k.proc q).state ≠ .unused ∧ (k.proc q).tickets = 1 := by
  induction h with
  | start =>
    refine ⟨hreach, fun q hq => ?_⟩
    rw [hq]
    exact ⟨ha, hone⟩
  | @step S k k' e _ hs hno ih =>
    obtain ⟨hk, hmembers⟩ := ih
    refine ⟨hk.step hs, fun q hq => ⟨hq.1, ?_⟩⟩
    obtain hq | ⟨c, p, -, rfl, hc, hctx⟩ := hq.2
    · obtain ⟨hlive, ht⟩ := hmembers q hq
      cases ticket_step (parentless_reachable hk) hs q with
      | kept ht' _ => exact ht'.trans ht
      | given hfree _ => exact absurd hfree hlive
      | set c t he hc => exact absurd hq (hno c t q he hc)
    · have hrun := (inv_reachable hk).harts.current c p hc
      have hready : (k.proc p).state.ready = true := by
        rw [hrun]
        rfl
      exact published_tickets hk ⟨hready, hctx⟩ hs

/-- In every reachable state, a successful `fork` gives the child its parent's tickets exactly when
the parent holds one. From an ancestor with one ticket on, the whole family holds one ticket each, as
long as no member calls `settickets`. -/
theorem fork_inherits_tickets_iff {k₀ : Kernel n} (hreach : (system cfg n).Reachable k₀) :
    (∀ p np k', ForkCall cfg k₀ p np k' →
      ((k'.proc np).tickets = (k₀.proc p).tickets ↔ (k₀.proc p).tickets = 1)) ∧
      ∀ a S k, (k₀.proc a).state ≠ .unused → (k₀.proc a).tickets = 1 → Lineage cfg a k₀ S k →
        ∀ q, S q → (k.proc q).tickets = (k₀.proc a).tickets := by
  refine ⟨fun p np k' h => h.tickets_iff hreach, fun a S k ha hone h q hq => ?_⟩
  rw [hone]
  exact ((h.tickets hreach ha hone).2 q hq).2

/-- The process `p` of hart `c` holds these tickets and can fork the child `np` at once. -/
def forkTest (cfg : Config) (c : Fin n) (p np : Slot) (tickets : Int) (k : Kernel n) : Bool :=
  k.myproc c == some p && (k.proc p).tickets == tickets &&
    ((system cfg n).next (.fork c ⟨true, true⟩ true) k).any fun k₁ =>
      (k₁.proc p).state.ready && (k₁.proc p).context == .forking np && k₁.myproc c == some p &&
        ((system cfg n).next (.forkEnd c) k₁).isSome

theorem forkCall_of_forkTest {tickets : Int} (h : forkTest cfg c p np tickets k = true) :
    (k.proc p).tickets = tickets ∧ ∃ k', ForkCall cfg k p np k' := by
  simp only [forkTest, Bool.and_eq_true, beq_iff_eq, Option.any_eq_true] at h
  obtain ⟨⟨hc, ht⟩, k₁, hfork, ⟨⟨hready, hctx⟩, hc₁⟩, hend⟩ := h
  obtain ⟨k', hk'⟩ := Option.isSome_iff_exists.mp hend
  exact ⟨ht, k', c, c, ⟨true, true⟩, true, k₁, k₁, [], hc, step_of_next hfork, .nil,
    fun s hs => absurd hs List.not_mem_nil, ⟨hready, hctx⟩, hc₁, step_of_next hk'⟩

/-- The first process forks with the ticket it has from the start. -/
theorem fork_inherits_tickets_first : ∃ k k' : Kernel 1, (system lbsConfig 1).Reachable k ∧
    ForkCall lbsConfig k 0 1 k' ∧ (k'.proc 1).tickets = (k.proc 0).tickets := by
  obtain ⟨steps, k, hrun, htest⟩ := exists_run (M := system lbsConfig 1)
    (firstRun 0 ++ [.syscall 0 zeroRegs 1])
    (fun _ k => forkTest lbsConfig 0 0 1 1 k) (by decide +kernel)
  obtain ⟨ht, k', hcall⟩ := forkCall_of_forkTest htest
  exact ⟨k, k', ⟨steps, hrun⟩, hcall, ((fork_inherits_tickets_iff ⟨steps, hrun⟩).1 0 1 k' hcall).mpr ht⟩

/-- The first process sets its tickets to 5 and forks. Its child has one ticket. -/
theorem fork_forgets_tickets : ∃ k k' : Kernel 1, (system lbsConfig 1).Reachable k ∧
    ForkCall lbsConfig k 0 1 k' ∧ (k.proc 0).tickets = 5 ∧
      (k'.proc 1).tickets ≠ (k.proc 0).tickets := by
  obtain ⟨steps, k, hrun, htest⟩ := exists_run (M := system lbsConfig 1)
    (firstRun 0 ++ [.syscall 0 zeroRegs 26, .settickets 0 5, .ret 0 0, .syscall 0 zeroRegs 1])
    (fun _ k => forkTest lbsConfig 0 0 1 5 k) (by decide +kernel)
  obtain ⟨ht, k', hcall⟩ := forkCall_of_forkTest htest
  refine ⟨k, k', ⟨steps, hrun⟩, hcall, ht, fun heq => ?_⟩
  have hone := (hcall.tickets_iff ⟨steps, hrun⟩).mp heq
  rw [ht] at hone
  cases hone

end Xv6
