import Xv6.Smp.Protocol

/-!
# The protocol of the process table

What happens to the family of processes at lock granularity, without the code. CPUs of any type share
slots of any type. A process has a parent, which reaps it, and the links from children to parents are
under one lock, `wait_lock`. Of the process that holds the lock only its `Phase` matters: how far its
`reparent`, `exit` or `wait` has come and what it therefore knows. Nobody else changes a link or exits
meanwhile, so what the holder knows stays true (`Inv.knows`).

Three laws are about this protocol. Every process has one parent, which is alive and reaps it once
(`Inv.alive`, `Inv.kept`, `Inv.reaped_by`). No parent sleeps over an exited child, except while the
holder of the lock is about to wake it (`Inv.lost`). And what `update_time` charges a process stays
within the process's life, as long as it charges nobody that was made in the current tick (`Timed`).
-/

namespace Xv6.Smp

open Function

/-- What the relatives of a process and the clock see of its record. -/
structure Member (σ : Type) where
  state : Procstate
  parent : Option σ
  pid : Int
  rtime : Nat
  ctime : Nat
  etime : Nat

/-- What a process does with `wait_lock` in its hands. -/
inductive Phase (σ : Type)
  /-- it does not hold the lock -/
  | out
  /-- it holds the lock and knows nothing -/
  | held
  /-- `fork` about to link this child to its parent -/
  | linking (q : σ)
  /-- `reparent`: these are no children of its own any more -/
  | adopting (gone : Set σ)
  /-- `reparent` waking the adopting process; these have been visited -/
  | calling (target : Option σ) (gone woken : Set σ)
  /-- `exit` waking the parent -/
  | rousing (target : Option σ) (woken : Set σ)
  /-- `exit` about to become a zombie -/
  | leaving
  /-- `wait`: no exited child among these -/
  | scanning (seen : Set σ)
  /-- `wait` has come to this child -/
  | found (seen : Set σ) (q : σ)
  /-- and looks at it -/
  | looking (seen : Set σ) (q : σ)

/-- CPUs `γ` and slots `σ`. -/
@[ext] structure Family (γ σ : Type) where
  member : σ → Member σ
  init : Option σ
  nextpid : Int
  ticks : Nat
  /-- the processes asleep in `wait`, or past the release of `wait_lock` on their way there -/
  asleep : Set σ
  /-- the slots `update_time` has yet to visit in the current tick -/
  due : Set σ
  /-- the children a thread has linked to their parent and not yet published -/
  links : Thread γ σ → List σ
  /-- the slots a thread has given a pid and not yet taken into use -/
  numbered : Thread γ σ → List σ
  /-- `wait_lock` -/
  lock : Option γ
  cur : γ → Option σ
  phase : σ → Phase σ

variable {γ σ : Type}

/-- The process that a wakeup is meant for. -/
def Phase.target : Phase σ → Option σ
  | .calling target _ _ | .rousing target _ => target
  | _ => none

/-- The phase after a wakeup has visited `q`. -/
def Phase.woke (q : σ) : Phase σ → Phase σ
  | .calling target gone woken => .calling target gone (insert q woken)
  | .rousing target woken => .rousing target (insert q woken)
  | φ => φ

theorem Procstate.ne_of_live {a b : Procstate} (ha : a.live = true) (hb : b.live = false) :
    a ≠ b := by
  rintro rfl
  rw [ha] at hb
  cases hb

namespace Member

/-- A change that no relative notices: to another state of a live process. -/
structure Calm (x y : Member σ) : Prop where
  fields : y = { x with state := y.state }
  state : y.state = x.state ∨ x.state.live = true ∧ y.state.live = true

/-- Nobody exits by such a change. -/
theorem Calm.zombie {x y : Member σ} (h : x.Calm y) (hy : y.state = .zombie) : x.state = .zombie := by
  rcases h.state with he | ⟨-, hlive⟩
  · rwa [← he]
  · rw [hy] at hlive
    cases hlive

/-- The record `freeproc` leaves. -/
def freed (x : Member σ) : Member σ := { x with state := .unused, parent := none, pid := 0 }

end Member

namespace Family

/-- What the process `p` may begin with when it takes `wait_lock`. -/
inductive Opens (init : Option σ) (p : σ) : Phase σ → Prop
  | fork (q : σ) : Opens init p (.linking q)
  | exit (h : init ≠ some p) : Opens init p (.adopting ∅)
  | wait : Opens init p (.scanning ∅)

/-- What the holder of `wait_lock` finds out, or the end of what it does. -/
inductive Thinks (member : σ → Member σ) (p : σ) : Phase σ → Phase σ → Prop
  -- exit
  | skip (q : σ) (gone : Set σ) (hq : (member q).parent ≠ some p) :
      Thinks member p (.adopting gone) (.adopting (insert q gone))
  | called (target : Option σ) (gone : Set σ) :
      Thinks member p (.calling target gone Set.univ) (.adopting gone)
  | rouse : Thinks member p (.adopting Set.univ) (.rousing (member p).parent ∅)
  | roused (target : Option σ) : Thinks member p (.rousing target Set.univ) .leaving
  -- wait
  | pass (q : σ) (seen : Set σ) (hq : (member q).parent ≠ some p) :
      Thinks member p (.scanning seen) (.scanning (insert q seen))
  | find (q : σ) (seen : Set σ) (hq : (member q).parent = some p) :
      Thinks member p (.scanning seen) (.found seen q)
  | look (q : σ) (seen : Set σ) : Thinks member p (.found seen q) (.looking seen q)
  | spare (q : σ) (seen : Set σ) (hq : (member q).state ≠ .zombie) :
      Thinks member p (.looking seen q) (.scanning (insert q seen))
  /-- the child stays, because its status could not be copied out -/
  | miss (q : σ) (seen : Set σ) : Thinks member p (.looking seen q) .held
  | done (seen : Set σ) : Thinks member p (.scanning seen) .held

/-- One step of the thread CPU `c` executes, and the process it charges a tick, if any. -/
inductive Step [DecidableEq γ] [DecidableEq σ] (c : γ) (f : Family γ σ) :
    Option σ → Family γ σ → Prop
  | calm (member : σ → Member σ) (asleep due : Set σ)
      (hm : ∀ q, (f.member q).Calm (member q)) (ha : asleep ⊆ f.asleep) (hd : due ⊆ f.due) :
      Step c f none { f with member := member, asleep := asleep, due := due }
  -- the clock
  | tick (due : Set σ) :
      Step c f none { f with ticks := uint32 (f.ticks + 1), due := due }
  | charge (q : σ) (due : Set σ) (hq : q ∈ f.due)
      (hrun : (f.member q).state = .running) (hd : due ⊆ f.due \ {q}) :
      Step c f (some q) { f with
        member := update f.member q { f.member q with rtime := uint32 ((f.member q).rtime + 1) }
        due := due }
  -- wait_lock
  | take (p : σ) (φ : Phase σ) (hc : f.cur c = some p) (hl : f.lock = none)
      (hφ : Opens f.init p φ) :
      Step c f none { f with lock := some c, phase := update f.phase p φ }
  | drop (p : σ) (hc : f.cur c = some p) (hp : f.phase p = .held) :
      Step c f none { f with lock := none, phase := update f.phase p .out }
  | doze (p : σ) (asleep : Set σ) (hc : f.cur c = some p)
      (hp : f.phase p = .scanning Set.univ) (ha : asleep ⊆ insert p f.asleep) :
      Step c f none { f with lock := none, phase := update f.phase p .out, asleep := asleep }
  -- fork
  | link (p q : σ) (hc : f.cur c = some p) (hp : f.phase p = .linking q)
      (hlive : (f.member p).state.live = true) (hq : (f.member q).state = .used)
      (hnew : ∀ t, q ∉ f.links t) :
      Step c f none { f with
        member := update f.member q { f.member q with parent := some p }
        links := update f.links (.proc p) (q :: f.links (.proc p))
        phase := update f.phase p .held }
  | publish (t : Thread γ σ) (q : σ) (r : List σ) (hl : f.links t = q :: r)
      (hr : ∀ t', q ∉ update f.links t r t') :
      Step c f none { f with
        member := update f.member q { f.member q with state := .runnable }
        links := update f.links t r }
  | think (p : σ) (φ : Phase σ) (hc : f.cur c = some p) (hφ : Thinks f.member p (f.phase p) φ) :
      Step c f none { f with phase := update f.phase p φ }
  -- exit
  | adopt (p q : σ) (gone : Set σ) (hc : f.cur c = some p)
      (hp : f.phase p = .adopting gone) (hq : (f.member q).parent = some p) :
      Step c f none { f with
        member := update f.member q { f.member q with parent := f.init }
        phase := update f.phase p (.calling f.init (insert q gone) ∅) }
  | wake (p q : σ) (member : σ → Member σ) (asleep : Set σ)
      (hc : f.cur c = some p) (hm : ∀ x, (f.member x).Calm (member x)) (ha : asleep ⊆ f.asleep)
      (hq : (f.phase p).target = some q → q ∉ asleep) :
      Step c f none { f with
        member := member, asleep := asleep, phase := update f.phase p ((f.phase p).woke q) }
  | die (p : σ) (hc : f.cur c = some p) (hp : f.phase p = .leaving)
      (hlive : (f.member p).state.live = true) :
      Step c f none { f with
        member := update f.member p { f.member p with state := .zombie, etime := f.ticks }
        phase := update f.phase p .held }
  -- wait
  | reap (p q : σ) (seen : Set σ) (hc : f.cur c = some p)
      (hp : f.phase p = .looking seen q) (hq : (f.member q).state = .zombie) :
      Step c f none { f with
        member := update f.member q (f.member q).freed, phase := update f.phase p .held }
  -- allocproc, and userinit
  | number (t : Thread γ σ) (q : σ) (hq : (f.member q).state = .unused) :
      Step c f none { f with
        member := update f.member q { f.member q with pid := f.nextpid }
        nextpid := f.nextpid + 1
        numbered := update f.numbered t (q :: f.numbered t) }
  | use (t : Thread γ σ) (q : σ) (r : List σ) (hl : f.numbered t = q :: r)
      (hr : ∀ t', q ∉ update f.numbered t r t') :
      Step c f none { f with
        member := update f.member q { f.member q with state := .used }
        numbered := update f.numbered t r }
  | make (q : σ) (hq : (f.member q).state = .used) :
      Step c f none { f with
        member := update f.member q { f.member q with rtime := 0, ctime := f.ticks, etime := 0 } }
  | abort (q : σ) (hq : (f.member q).state = .used)
      (hnew : ∀ t, q ∉ f.links t) :
      Step c f none { f with member := update f.member q (f.member q).freed }
  | boot (q : σ) (hq : (f.member q).state = .used)
      (hnew : ∀ t, q ∉ f.links t) (hi : f.init = none) (hcur : ∀ d, f.cur d = none) :
      Step c f none { f with
        member := update f.member q { f.member q with state := .runnable }, init := some q }
  -- context switches
  | enter (p : σ) (hc : f.cur c = none) (hp : ∀ d, f.cur d ≠ some p) :
      Step c f none { f with cur := update f.cur c (some p) }
  | leave (p : σ) (hc : f.cur c = some p) (hp : f.phase p = .out) :
      Step c f none { f with cur := update f.cur c none }

/-- Nothing need happen. -/
theorem Step.idle [DecidableEq γ] [DecidableEq σ] (c : γ) (f : Family γ σ) : f.Step c none f :=
  .calm f.member f.asleep f.due (fun _ => ⟨rfl, .inl rfl⟩) (subset_refl _) (subset_refl _)

theorem Step.cast [DecidableEq γ] [DecidableEq σ] {c : γ} {f f' g : Family γ σ} {l : Option σ}
    (hs : f.Step c l g) (h : f' = g) : f.Step c l f' :=
  h ▸ hs

/-! ## The invariant -/

/-- What the process `p` knows in a phase. -/
def Knows (f : Family γ σ) (p : σ) : Phase σ → Prop
  | .out | .held | .linking _ => True
  | .adopting gone => f.init ≠ some p ∧ ∀ q ∈ gone, (f.member q).parent ≠ some p
  | .calling target gone woken =>
    f.init ≠ some p ∧ target = f.init ∧ (∀ q ∈ gone, (f.member q).parent ≠ some p) ∧
      ∀ i ∈ woken, target = some i → i ∉ f.asleep
  | .rousing target woken =>
    f.init ≠ some p ∧ target = (f.member p).parent ∧ (∀ q, (f.member q).parent ≠ some p) ∧
      ∀ i ∈ woken, target = some i → i ∉ f.asleep
  | .leaving =>
    f.init ≠ some p ∧ (∀ q, (f.member q).parent ≠ some p) ∧
      ∀ i, (f.member p).parent = some i → i ∉ f.asleep
  | .scanning seen => ∀ q ∈ seen, (f.member q).parent = some p → (f.member q).state ≠ .zombie
  | .found seen q | .looking seen q =>
    (∀ x ∈ seen, (f.member x).parent = some p → (f.member x).state ≠ .zombie) ∧
      (f.member q).parent = some p

/-- What holds in every state. -/
structure Inv (f : Family γ σ) : Prop where
  /-- the lock is held as the phases say -/
  lock : ∀ c, f.lock = some c ↔ ∃ p, f.cur c = some p ∧ f.phase p ≠ .out
  rest : ∀ p, (∀ c, f.cur c ≠ some p) → f.phase p = .out
  once : ∀ c d p, f.cur c = some p → f.cur d = some p → c = d
  knows : ∀ p, f.Knows p (f.phase p)
  -- the tree
  root : ∀ p, (f.member p).state.live = true → f.init ≠ none
  init : ∀ i, f.init = some i → (f.member i).state.live = true
  /-- a process not yet linked has no parent -/
  lone : ∀ q, (f.member q).state = .unused ∨ (f.member q).state = .used → (∀ t, q ∉ f.links t) →
    (f.member q).parent = none
  alive : ∀ q p, (f.member q).parent = some p → (f.member p).state.live = true
  kept : ∀ q, (f.member q).state.live = true ∨ (f.member q).state = .zombie →
    f.init = some q ∨ (f.member q).parent ≠ none
  links : ∀ t q, q ∈ f.links t → (f.member q).state = .used ∧ (f.member q).parent ≠ none
  -- pids
  nextpid : 0 < f.nextpid
  pid : ∀ q, 0 ≤ (f.member q).pid ∧ (f.member q).pid < f.nextpid
  named : ∀ q, (f.member q).state ≠ .unused → (f.member q).pid ≠ 0
  distinct : ∀ p q, (f.member p).pid = (f.member q).pid → (f.member p).pid ≠ 0 → p = q
  numbered : ∀ t q, q ∈ f.numbered t → (f.member q).state = .unused ∧ (f.member q).pid ≠ 0
  /-- a parent asleep over an exited child is about to be woken -/
  lost : ∀ p q, (f.member q).parent = some p → (f.member q).state = .zombie → p ∈ f.asleep →
    ∃ r gone woken, f.phase r = .calling (some p) gone woken ∧ p ∉ woken

/-! ## What a step does to one process -/

/-- What a step does to the record of `q`. -/
inductive Grows (f f' : Family γ σ) (q : σ) : Prop
  | calm (hstate : (f'.member q).state = (f.member q).state ∨
        (f.member q).state.live = true ∧ (f'.member q).state.live = true)
      (hparent : (f'.member q).parent = (f.member q).parent)
      (hpid : (f'.member q).pid = (f.member q).pid)
  | linked (p : σ) (hused : (f.member q).state = .used)
      (hstate : (f'.member q).state = (f.member q).state)
      (hparent : (f'.member q).parent = some p) (hpid : (f'.member q).pid = (f.member q).pid)
      (hlone : (f.member q).parent = none) (hlive : (f'.member p).state.live = true)
      (hlinks : ∃ t, q ∈ f'.links t)
  | adopted (p : σ) (hp : (f.member q).parent = some p)
      (hstate : (f'.member q).state = (f.member q).state)
      (hparent : (f'.member q).parent = f.init) (hpid : (f'.member q).pid = (f.member q).pid)
      (hinit : f'.init = f.init)
  | published (hused : (f.member q).state = .used) (hstate : (f'.member q).state = .runnable)
      (hparent : (f'.member q).parent = (f.member q).parent)
      (hpid : (f'.member q).pid = (f.member q).pid)
      (hkept : f'.init = some q ∨ (f.member q).parent ≠ none) (hlinks : ∀ t, q ∉ f'.links t)
  | died (hlive : (f.member q).state.live = true) (hstate : (f'.member q).state = .zombie)
      (hparent : (f'.member q).parent = (f.member q).parent)
      (hpid : (f'.member q).pid = (f.member q).pid)
      (hchild : ∀ x, (f'.member x).parent ≠ some q) (hinit : f'.init ≠ some q)
      (hcur : ∃ c, f.cur c = some q)
  | freed (hstate : (f.member q).state = .zombie ∨ (f.member q).state = .used)
      (hfreed : f'.member q = (f.member q).freed) (hlinks : ∀ t, q ∉ f'.links t)
  | numbered (hunused : (f.member q).state = .unused)
      (hstate : (f'.member q).state = .unused)
      (hparent : (f'.member q).parent = (f.member q).parent)
      (hpid : (f'.member q).pid = f.nextpid) (hnext : f'.nextpid = f.nextpid + 1)
  | used (hunused : (f.member q).state = .unused) (hstate : (f'.member q).state = .used)
      (hparent : (f'.member q).parent = (f.member q).parent)
      (hpid : (f'.member q).pid = (f.member q).pid) (hnamed : (f.member q).pid ≠ 0)
      (hnumbered : ∀ t, q ∉ f'.numbered t)

/-! ## States -/

section States

variable {f f' : Family γ σ} {c : γ} {p q : σ} {φ φ' : Phase σ}

/-- A process in a phase is on the CPU that has the lock. -/
theorem Inv.holds (h : f.Inv) (hp : f.phase p ≠ .out) :
    ∃ d, f.cur d = some p ∧ f.lock = some d := by
  by_contra hnone
  refine hp (h.rest p fun d hd => hnone ⟨d, hd, (h.lock d).mpr ⟨p, hd, hp⟩⟩)

/-- Only the process with the lock is in a phase. -/
theorem Inv.holder (h : f.Inv) (hc : f.cur c = some p) (hp : f.phase p ≠ .out) (x : σ)
    (hx : x ≠ p) : f.phase x = .out := by
  by_contra hne
  obtain ⟨d, hd, hdl⟩ := h.holds hne
  rw [(h.lock c).mpr ⟨p, hc, hp⟩] at hdl
  cases hdl
  rw [hc] at hd
  cases hd
  exact hx rfl

/-- While the lock is free nobody is in a phase. -/
theorem Inv.free (h : f.Inv) (hl : f.lock = none) (p : σ) : f.phase p = .out := by
  by_contra hne
  obtain ⟨d, -, hdl⟩ := h.holds hne
  rw [hl] at hdl
  cases hdl

/-- While the lock is free, nobody sleeps in `wait` over an exited child. -/
theorem Inv.awake (h : f.Inv) (hl : f.lock = none) (ha : p ∈ f.asleep)
    (hparent : (f.member q).parent = some p) : (f.member q).state ≠ .zombie := by
  intro hz
  obtain ⟨r, gone, woken, hr, -⟩ := h.lost p q hparent hz ha
  rw [h.free hl r] at hr
  cases hr

theorem Phase.woke_ne_out (h : φ ≠ .out) (q : σ) : φ.woke q ≠ .out := by
  cases φ with
  | out => exact absurd rfl h
  | _ => exact nofun

theorem Thinks.ne_out {member : σ → Member σ}
    (h : Thinks member p φ φ') : φ ≠ .out ∧ φ' ≠ .out := by
  cases h <;> exact ⟨nofun, nofun⟩

/-- Nothing is forgotten while the links stay, nobody exits and nobody falls asleep. -/
theorem Knows.mono (hk : f.Knows p φ) (hinit : f'.init = f.init)
    (hparent : ∀ q, (f'.member q).parent = (f.member q).parent)
    (hzombie : ∀ q, (f'.member q).state = .zombie → (f.member q).state = .zombie)
    (hasleep : f'.asleep ⊆ f.asleep) : f'.Knows p φ := by
  have hseen : ∀ {seen : Set σ}, (∀ q ∈ seen, (f.member q).parent = some p →
      (f.member q).state ≠ .zombie) → ∀ q ∈ seen, (f'.member q).parent = some p →
      (f'.member q).state ≠ .zombie := by
    intro seen h q hq hp hz
    exact h q hq (by rwa [← hparent]) (hzombie q hz)
  cases φ with
  | out | held | linking => trivial
  | adopting gone => exact ⟨by rw [hinit]; exact hk.1, fun q hq => by rw [hparent]; exact hk.2 q hq⟩
  | calling =>
    obtain ⟨hne, htarget, hgone, hwoken⟩ := hk
    exact ⟨by rwa [hinit], by rwa [hinit], fun q hq => by rw [hparent]; exact hgone q hq,
      fun i hi ht hs => hwoken i hi ht (hasleep hs)⟩
  | rousing =>
    obtain ⟨hne, htarget, hgone, hwoken⟩ := hk
    exact ⟨by rwa [hinit], by rwa [hparent], fun q => by rw [hparent]; exact hgone q,
      fun i hi ht hs => hwoken i hi ht (hasleep hs)⟩
  | leaving =>
    obtain ⟨hne, hgone, hparentAwake⟩ := hk
    exact ⟨by rwa [hinit], fun q => by rw [hparent]; exact hgone q,
      fun i hi hs => hparentAwake i (by rwa [← hparent]) (hasleep hs)⟩
  | scanning seen => exact hseen hk
  | found seen q | looking seen q => exact ⟨hseen hk.1, by rw [hparent]; exact hk.2⟩

/-- What a phase knows survives a calm change of the table. -/
theorem Inv.knows_calm (h : f.Inv) (hm : ∀ q, (f.member q).Calm (f'.member q))
    (hinit : f'.init = f.init) (hasleep : f'.asleep ⊆ f.asleep) :
    f'.Knows p (f.phase p) := by
  refine (h.knows p).mono hinit (fun q => ?_) (fun q => (hm q).zombie) hasleep
  rw [(hm q).fields]

/-- A thought keeps what the phase knows true. -/
theorem Thinks.knows (h : Thinks f.member p φ φ') (hk : f.Knows p φ) :
    f.Knows p φ' := by
  cases h with
  | skip q gone hq =>
    refine ⟨hk.1, ?_⟩
    rintro y (rfl | hy)
    · exact hq
    · exact hk.2 y hy
  | called => exact ⟨hk.1, hk.2.2.1⟩
  | rouse => exact ⟨hk.1, rfl, fun q => hk.2 q (Set.mem_univ q), nofun⟩
  | roused target =>
    obtain ⟨hne, htarget, hgone, hwoken⟩ := hk
    exact ⟨hne, hgone, fun i hi => hwoken i (Set.mem_univ i) (htarget.trans hi)⟩
  | pass q seen hq =>
    rintro y (rfl | hy) hparent
    · exact absurd hparent hq
    · exact hk y hy hparent
  | find q seen hq => exact ⟨hk, hq⟩
  | look q seen => exact hk
  | spare q seen hq =>
    rintro y (rfl | hy) hparent
    · exact hq
    · exact hk.1 y hy hparent
  | miss q seen => trivial
  | done seen => trivial

/-- The process `p` is about to be woken by the one that adopts for it. -/
def Called (f : Family γ σ) (p : σ) : Prop :=
  ∃ r gone woken, f.phase r = .calling (some p) gone woken ∧ p ∉ woken

/-- A sleeper with a zombie child is still called after a calm change. -/
theorem Inv.called_calm {member : σ → Member σ} (h : f.Inv)
    (hm : ∀ q, (f.member q).Calm (member q)) (hparent : (member q).parent = some p)
    (hz : (member q).state = .zombie) (ha : p ∈ f.asleep) : f.Called p := by
  refine h.lost p q ?_ ((hm q).zombie hz) ha
  rw [← hparent, (hm q).fields]

theorem Grows.of_same (h : f'.member q = f.member q) : Grows f f' q :=
  .calm (.inl (by rw [h])) (by rw [h]) (by rw [h])

theorem Grows.of_calm (h : (f.member q).Calm (f'.member q)) : Grows f f' q := by
  refine .calm h.state ?_ ?_
  · rw [h.fields]
  · rw [h.fields]

/-- The times of every process fit into its life, and those of a process the clock has yet to visit
leave room for the current tick. -/
structure Timed (f : Family γ σ) : Prop where
  sum : ∀ q, (f.member q).ctime + (f.member q).rtime ≤ f.ticks
  due : ∀ q ∈ f.due, (f.member q).ctime < f.ticks →
    (f.member q).ctime + (f.member q).rtime < f.ticks
  exited : ∀ q, (f.member q).state = .zombie →
    (f.member q).ctime + (f.member q).rtime ≤ (f.member q).etime ∧ (f.member q).etime ≤ f.ticks

/-- Times that do not change stay in order. -/
theorem Timed.same (h : f.Timed) (hticks : f'.ticks = f.ticks) (hdue : f'.due ⊆ f.due)
    (htimes : ∀ q, (f'.member q).ctime = (f.member q).ctime ∧
      (f'.member q).rtime = (f.member q).rtime ∧ (f'.member q).etime = (f.member q).etime)
    (hzombie : ∀ q, (f'.member q).state = .zombie → (f.member q).state = .zombie) : f'.Timed where
  sum := by
    intro q
    rw [hticks, (htimes q).1, (htimes q).2.1]
    exact h.sum q
  due := by
    intro q hq
    rw [hticks, (htimes q).1, (htimes q).2.1]
    exact h.due q (hdue hq)
  exited := by
    intro q hq
    rw [hticks, (htimes q).1, (htimes q).2.1, (htimes q).2.2]
    exact h.exited q (hzombie q hq)

/-- A calm change keeps the times in order. -/
theorem Timed.calm (h : f.Timed) (hm : ∀ q, (f.member q).Calm (f'.member q))
    (hticks : f'.ticks = f.ticks) (hdue : f'.due ⊆ f.due) : f'.Timed := by
  refine h.same hticks hdue (fun q => ?_) fun q => (hm q).zombie
  rw [(hm q).fields]
  exact ⟨rfl, rfl, rfl⟩

variable [DecidableEq σ] {x : σ} {y : Member σ}

/-- Where one record changes, only that one has to be looked at. -/
theorem Grows.of_update (h : f'.member = update f.member x y)
    (hx : q = x → Grows f f' q) : Grows f f' q := by
  by_cases hq : q = x
  · exact hx hq
  · exact .of_same (by rw [h, update_of_ne hq])

/-- Where one record changes, what the old and the new one agree about stays. -/
theorem update_rel (hmember : f'.member = update f.member x y)
    {R : Member σ → Member σ → Prop} (hR : ∀ z, R z z) (hy : R (f.member x) y) (q : σ) :
    R (f.member q) (f'.member q) := by
  rw [hmember]
  by_cases hq : q = x
  · rwa [hq, update_self]
  · rw [update_of_ne hq]
    exact hR _

/-- What a phase knows survives a write that moves nobody in the tree. -/
theorem Inv.knows_update (h : f.Inv)
    (hmember : f'.member = update f.member x y) (hparent : y.parent = (f.member x).parent)
    (hzombie : y.state = .zombie → (f.member x).state = .zombie) (hinit : f'.init = f.init)
    (hasleep : f'.asleep ⊆ f.asleep) (hphase : f'.phase = f.phase) :
    f'.Knows p (f'.phase p) := by
  rw [hphase]
  exact (h.knows p).mono hinit
    (update_rel hmember (R := fun a b => b.parent = a.parent) (fun _ => rfl) hparent)
    (update_rel hmember (R := fun a b => b.state = .zombie → a.state = .zombie) (fun _ => id) hzombie)
    hasleep

/-- Only the holder's phase matters. -/
theorem Inv.knows_moved (h : f.Inv) (hc : f.cur c = some p)
    (hp : f.phase p ≠ .out) (hphase : f'.phase = update f.phase p φ) (hk : f'.Knows p φ) :
    f'.Knows x (f'.phase x) := by
  rw [hphase]
  by_cases hx : x = p
  · subst hx
    rwa [update_self]
  · rw [update_of_ne hx, h.holder hc hp x hx]
    trivial

/-- A process that is not calling anybody may change its phase. -/
theorem Called.update (h : f.Called p)
    (hphase : f'.phase = update f.phase x φ)
    (hx : ∀ gone woken, f.phase x ≠ .calling (some p) gone woken) : f'.Called p := by
  obtain ⟨r, gone, woken, hr, hw⟩ := h
  have hrx : r ≠ x := by
    rintro rfl
    exact hx gone woken hr
  exact ⟨r, gone, woken, by rw [hphase, update_of_ne hrx, hr], hw⟩

/-- One record changes and makes no new child or zombie. -/
theorem Inv.called_update (h : f.Inv)
    (hparent : (update f.member x y q).parent = some p)
    (hz : (update f.member x y q).state = .zombie) (ha : p ∈ f.asleep)
    (hy : y.parent = some p → y.state = .zombie →
      (f.member x).parent = some p ∧ (f.member x).state = .zombie) : f.Called p := by
  by_cases hq : q = x
  · subst hq
    rw [update_self] at hparent hz
    obtain ⟨hparent, hz⟩ := hy hparent hz
    exact h.lost p q hparent hz ha
  · rw [update_of_ne hq] at hparent hz
    exact h.lost p q hparent hz ha

/-- One record changes, and the times of the new one fit. -/
theorem Timed.write (h : f.Timed) (hmember : f'.member = update f.member x y)
    (hticks : f'.ticks = f.ticks) (hdue : f'.due ⊆ f.due) (hsum : y.ctime + y.rtime ≤ f.ticks)
    (hroom : x ∈ f'.due → y.ctime < f.ticks → y.ctime + y.rtime < f.ticks)
    (hexited : y.state = .zombie → y.ctime + y.rtime ≤ y.etime ∧ y.etime ≤ f.ticks) :
    f'.Timed := by
  refine ⟨?_, ?_, ?_⟩ <;> rw [hmember, hticks]
  · exact (forall_update_iff f.member fun _ z => z.ctime + z.rtime ≤ f.ticks).mpr
      ⟨hsum, fun q _ => h.sum q⟩
  · exact (forall_update_iff f.member fun q z =>
      q ∈ f'.due → z.ctime < f.ticks → z.ctime + z.rtime < f.ticks).mpr
      ⟨hroom, fun q _ hq => h.due q (hdue hq)⟩
  · exact (forall_update_iff f.member fun _ z =>
      z.state = .zombie → z.ctime + z.rtime ≤ z.etime ∧ z.etime ≤ f.ticks).mpr
      ⟨hexited, fun q _ => h.exited q⟩

/-- A write that keeps the times of a record keeps them in order. -/
theorem Timed.update (h : f.Timed) (hmember : f'.member = update f.member x y)
    (hticks : f'.ticks = f.ticks) (hdue : f'.due ⊆ f.due)
    (htimes : y.ctime = (f.member x).ctime ∧ y.rtime = (f.member x).rtime ∧
      y.etime = (f.member x).etime)
    (hzombie : y.state = .zombie → (f.member x).state = .zombie) : f'.Timed := by
  obtain ⟨hctime, hrtime, hetime⟩ := htimes
  refine h.write hmember hticks hdue ?_ ?_ ?_ <;> rw [hctime, hrtime]
  · exact h.sum x
  · exact fun hx => h.due x (hdue hx)
  · rw [hetime]
    exact fun hz => h.exited x (hzombie hz)

end States

/-! ## Steps -/

section Step

variable [DecidableEq γ] [DecidableEq σ] {f f' : Family γ σ} {c : γ} {l : Option σ} {p q : σ}

/-- What a step does to the lock and its holder: nothing, or one process goes from one phase to
another, or a CPU switches. -/
inductive Turns (c : γ) (f f' : Family γ σ) : Prop
  | same (hlock : f'.lock = f.lock) (hcur : f'.cur = f.cur) (hphase : f'.phase = f.phase)
  | moves (p : σ) (φ : Phase σ) (hc : f.cur c = some p) (hp : f.phase p ≠ .out) (hφ : φ ≠ .out)
      (hlock : f'.lock = f.lock) (hcur : f'.cur = f.cur) (hphase : f'.phase = update f.phase p φ)
  | takes (p : σ) (φ : Phase σ) (hc : f.cur c = some p) (hl : f.lock = none) (hφ : φ ≠ .out)
      (hlock : f'.lock = some c) (hcur : f'.cur = f.cur) (hphase : f'.phase = update f.phase p φ)
  | drops (p : σ) (hc : f.cur c = some p) (hp : f.phase p ≠ .out) (hlock : f'.lock = none)
      (hcur : f'.cur = f.cur) (hphase : f'.phase = update f.phase p .out)
  | enters (p : σ) (hc : f.cur c = none) (hp : ∀ d, f.cur d ≠ some p) (hlock : f'.lock = f.lock)
      (hcur : f'.cur = update f.cur c (some p)) (hphase : f'.phase = f.phase)
  | leaves (p : σ) (hc : f.cur c = some p) (hp : f.phase p = .out) (hlock : f'.lock = f.lock)
      (hcur : f'.cur = update f.cur c none) (hphase : f'.phase = f.phase)

/-- A step keeps the times sound if the clock does not wrap around and nobody is charged the tick in
which it was made. -/
theorem Timed.step (h : f.Timed) (hs : f.Step c l f')
    (hticks : f'.ticks = f.ticks ∨ f'.ticks = f.ticks + 1)
    (hnew : ∀ q, l = some q → (f.member q).ctime ≠ f.ticks) : f'.Timed := by
  cases hs with
  | calm member asleep due hm ha hd => exact h.calm hm rfl hd
  | tick due =>
    have hnext : uint32 (f.ticks + 1) = f.ticks + 1 := by
      rcases hticks with he | he
      · change uint32 (f.ticks + 1) = f.ticks at he
        rw [uint32] at he
        omega
      · exact he
    refine ⟨fun q => ?_, fun q _ _ => ?_, fun q hz => ?_⟩
    · have := h.sum q
      simp only [hnext]
      omega
    · have := h.sum q
      simp only [hnext]
      omega
    · have := h.exited q hz
      simp only [hnext]
      omega
  | charge x due hx hrun hd =>
    have hroom := h.due x hx (lt_of_le_of_ne (le_trans (Nat.le_add_right ..) (h.sum x))
      (hnew x rfl))
    have hrtime : uint32 ((f.member x).rtime + 1) ≤ (f.member x).rtime + 1 := Nat.mod_le ..
    refine h.write rfl rfl (fun q hq => (hd hq).1) ?_ (fun hq => absurd rfl (hd hq).2)
      fun hz => by cases hrun.symm.trans hz
    show (f.member x).ctime + uint32 ((f.member x).rtime + 1) ≤ f.ticks
    omega
  | make x hx =>
    exact h.write rfl rfl (subset_refl _) (le_refl _) (fun _ hlt => absurd hlt (lt_irrefl _))
      fun hz => by cases hx.symm.trans hz
  | die x =>
    exact h.write rfl rfl (subset_refl _) (h.sum x) (h.due x) fun _ => ⟨h.sum x, le_refl _⟩
  | link | adopt | number => exact h.update rfl rfl (subset_refl _) ⟨rfl, rfl, rfl⟩ id
  | publish | reap | use | abort | boot =>
    exact h.update rfl rfl (subset_refl _) ⟨rfl, rfl, rfl⟩ nofun
  | wake p x member asleep hc hm ha hx => exact h.calm hm rfl (subset_refl _)
  | _ => exact h.same rfl (subset_refl _) (fun _ => ⟨rfl, rfl, rfl⟩) fun _ => id

variable (hs : f.Step c l f')

include hs

/-- The first process is chosen once. -/
theorem Step.init :
    f'.init = f.init ∨ f.init = none ∧ ∃ i, f'.init = some i ∧ (f'.member i).state.live = true := by
  cases hs with
  | boot x hx hnew hi hcur => exact .inr ⟨hi, x, rfl, by simp only [update_self]; rfl⟩
  | _ => exact .inl rfl

/-- A slot leaves the links only when it is published. -/
theorem Step.links_old (q : σ) (hq : ∀ t, q ∉ f'.links t) :
    (∀ t, q ∉ f.links t) ∨ (f'.member q).state = .runnable := by
  cases hs with
  | link p =>
    left
    intro t ht
    refine hq t ?_
    by_cases he : t = .proc p
    · subst he
      simp only [update_self]
      exact List.mem_cons_of_mem _ ht
    · simpa only [update_of_ne he] using ht
  | publish t x r hl hr =>
    by_cases hx : q = x
    · subst hx
      exact .inr (by simp only [update_self])
    · left
      intro t' ht
      refine hq t' ?_
      by_cases he : t' = t
      · subst he
        rw [hl] at ht
        simp only [update_self]
        exact (List.mem_cons.mp ht).resolve_left hx
      · simpa only [update_of_ne he] using ht
  | _ => exact .inl hq

/-- A slot enters the links with a parent, while it is being made. -/
theorem Step.links_new {t : Thread γ σ} (hq : q ∈ f'.links t) :
    (∃ t, q ∈ f.links t) ∨ (f'.member q).state = .used ∧ (f'.member q).parent ≠ none := by
  cases hs with
  | link p x hc hp hlive hx hnew =>
    by_cases hqx : q = x
    · subst hqx
      right
      simp only [update_self]
      exact ⟨hx, Option.some_ne_none p⟩
    · left
      by_cases he : t = .proc p
      · subst he
        simp only [update_self] at hq
        exact ⟨_, (List.mem_cons.mp hq).resolve_left hqx⟩
      · simp only [update_of_ne he] at hq
        exact ⟨t, hq⟩
  | publish t' x r hl hr =>
    left
    by_cases he : t = t'
    · subst he
      simp only [update_self] at hq
      exact ⟨t, by rw [hl]; exact List.mem_cons_of_mem _ hq⟩
    · simp only [update_of_ne he] at hq
      exact ⟨t, hq⟩
  | _ => exact .inl ⟨t, hq⟩

/-- A step clears pids, or gives one slot the next one. -/
theorem Step.pids :
    (f.nextpid = f'.nextpid ∧
        ∀ q, (f'.member q).pid = (f.member q).pid ∨ (f'.member q).pid = 0) ∨
      f'.nextpid = f.nextpid + 1 ∧
        ∃ x, f'.member = update f.member x { f.member x with pid := f.nextpid } := by
  have hupdate : ∀ (x : σ) (y : Member σ), y.pid = (f.member x).pid ∨ y.pid = 0 → ∀ q,
      (update f.member x y q).pid = (f.member q).pid ∨ (update f.member x y q).pid = 0 := by
    intro x y hy q
    by_cases hq : q = x
    · subst hq
      simpa only [update_self] using hy
    · simp only [update_of_ne hq, true_or]
  have hcalm : ∀ {member : σ → Member σ}, (∀ q, (f.member q).Calm (member q)) → ∀ q,
      (member q).pid = (f.member q).pid ∨ (member q).pid = 0 := by
    intro member hm q
    left
    rw [(hm q).fields]
  cases hs with
  | calm member asleep due hm ha hd | wake p x member asleep hc hm ha hx =>
    exact .inl ⟨rfl, hcalm hm⟩
  | charge x | link p x | publish t x | adopt p x | use t x | make x | boot x =>
    exact .inl ⟨rfl, hupdate x _ (.inl rfl)⟩
  | die p => exact .inl ⟨rfl, hupdate p _ (.inl rfl)⟩
  | reap p x | abort x => exact .inl ⟨rfl, hupdate x _ (.inr rfl)⟩
  | number t x hx => exact .inr ⟨rfl, x, rfl⟩
  | _ => exact .inl ⟨rfl, fun _ => .inl rfl⟩

/-- A slot is numbered with the next pid. -/
theorem Step.numbered_new {t : Thread γ σ}
    (hq : q ∈ f'.numbered t) :
    (∃ t, q ∈ f.numbered t) ∨
      (f'.member q).state = .unused ∧ (f'.member q).pid = f.nextpid := by
  cases hs with
  | number t' x hx =>
    by_cases hqx : q = x
    · subst hqx
      right
      simp only [update_self, and_true]
      exact hx
    · left
      by_cases he : t = t'
      · subst he
        simp only [update_self] at hq
        exact ⟨_, (List.mem_cons.mp hq).resolve_left hqx⟩
      · simp only [update_of_ne he] at hq
        exact ⟨t, hq⟩
  | use t' x r hl hr =>
    left
    by_cases he : t = t'
    · subst he
      simp only [update_self] at hq
      exact ⟨t, by rw [hl]; exact List.mem_cons_of_mem _ hq⟩
    · simp only [update_of_ne he] at hq
      exact ⟨t, hq⟩
  | _ => exact .inl ⟨t, hq⟩

/-- How the phases and `wait_lock` move in a step. -/
theorem Step.turns : Turns c f f' := by
  have hne : ∀ {p : σ} {φ : Phase σ}, f.phase p = φ → φ ≠ .out → f.phase p ≠ .out := by
    rintro p φ rfl hφ
    exact hφ
  cases hs with
  | take p φ hc hl hφ =>
    refine .takes p φ hc hl ?_ rfl rfl rfl
    cases hφ <;> exact nofun
  | drop p hc hp | doze p asleep hc hp ha => exact .drops p hc (hne hp nofun) rfl rfl rfl
  | link p x hc hp | die p hc hp | reap p x seen hc hp =>
    exact .moves p .held hc (hne hp nofun) nofun rfl rfl rfl
  | think p φ hc hφ => exact .moves p φ hc hφ.ne_out.1 hφ.ne_out.2 rfl rfl rfl
  | adopt p x gone hc hp hx => exact .moves p (.calling _ _ _) hc (hne hp nofun) nofun rfl rfl rfl
  | wake p x member asleep hc =>
    by_cases hp : f.phase p = .out
    · refine .same rfl rfl ?_
      rw [hp]
      exact update_eq_self_iff.mpr hp.symm
    · exact .moves p _ hc hp (Phase.woke_ne_out hp x) rfl rfl rfl
  | enter p hc hp => exact .enters p hc hp rfl rfl rfl
  | leave p hc hp => exact .leaves p hc hp rfl rfl rfl
  | _ => exact .same rfl rfl rfl

/-- A slot is given a parent by the thread that is linking it. -/
theorem Step.linked_by (hnone : (f.member q).parent = none)
    (hsome : (f'.member q).parent = some p) : f.cur c = some p ∧ f.phase p = .linking q := by
  have hupdate : ∀ {x : σ} {y : Member σ}, (update f.member x y q).parent = some p →
      y.parent = (f.member x).parent ∨ y.parent = none → False := by
    intro x y hparent hor
    by_cases hq : q = x
    · subst hq
      rw [update_self] at hparent
      rcases hor with he | he
      · rw [he, hnone] at hparent
        cases hparent
      · rw [he] at hparent
        cases hparent
    · rw [update_of_ne hq, hnone] at hparent
      cases hparent
  have hcalm : ∀ {member : σ → Member σ}, (∀ q, (f.member q).Calm (member q)) →
      (member q).parent = some p → False := by
    intro member hm hparent
    rw [(hm q).fields, hnone] at hparent
    cases hparent
  cases hs with
  | calm member asleep due hm ha hd | wake x y member asleep hc hm ha hy =>
    exact (hcalm hm hsome).elim
  | charge | publish | die | number | use | make | boot => exact (hupdate hsome (.inl rfl)).elim
  | link x y hc hp =>
    by_cases hq : q = y
    · subst hq
      simp only [update_self] at hsome
      cases hsome
      exact ⟨hc, hp⟩
    · simp only [update_of_ne hq, hnone] at hsome
      cases hsome
  | adopt x y gone hc hp hy =>
    by_cases hq : q = y
    · subst hq
      rw [hnone] at hy
      cases hy
    · simp only [update_of_ne hq, hnone] at hsome
      cases hsome
  | reap | abort => exact (hupdate hsome (.inr rfl)).elim
  | _ =>
    rw [hnone] at hsome
    cases hsome

/-- A pid that no process has any more is not given again. -/
theorem Step.pid_gone {x : Int} (hx : x ≠ 0) (hlt : x < f.nextpid)
    (hgone : ∀ q, (f.member q).pid = x → (f'.member q).pid = 0) :
    x < f'.nextpid ∧ ∀ q, (f'.member q).pid ≠ x := by
  rcases hs.pids with ⟨hnext, hsame⟩ | ⟨hnext, y, hy⟩
  · refine ⟨hnext ▸ hlt, fun q hq => ?_⟩
    rcases hsame q with he | he
    · exact hx (hq.symm.trans (hgone q (he.symm.trans hq)))
    · exact hx (hq.symm.trans he)
  · refine ⟨by omega, fun q hq => ?_⟩
    by_cases hqy : q = y
    · rw [hy, hqy, update_self] at hq
      change f.nextpid = x at hq
      omega
    · have he : (f'.member q).pid = (f.member q).pid := by rw [hy, update_of_ne hqy]
      exact hx (hq.symm.trans (hgone q (he.symm.trans hq)))

variable (h : f.Inv)

include h

/-! ## The tree stays sound -/

/-- How one record changes in a step. -/
theorem Step.grows (q : σ) : Grows f f' q := by
  cases hs with
  | calm member asleep due hm ha hd | wake p x member asleep hc hm ha hx => exact .of_calm (hm q)
  | charge x | make x hx =>
    refine .of_update rfl ?_
    rintro rfl
    refine .calm (.inl ?_) ?_ ?_ <;> simp only [update_self]
  | link p x hc hp hlive hx hnew =>
    refine .of_update rfl ?_
    rintro rfl
    have hpq : p ≠ q := by
      rintro rfl
      rw [hx] at hlive
      cases hlive
    refine .linked p hx ?_ ?_ ?_ (h.lone q (.inr hx) hnew) ?_ ⟨.proc p, ?_⟩
    · simp only [update_self]
    · simp only [update_self]
    · simp only [update_self]
    · simpa only [update_of_ne hpq] using hlive
    · simp only [update_self, List.mem_cons, true_or]
  | publish t x r hl hr =>
    refine .of_update rfl ?_
    rintro rfl
    have hlinked := h.links t q (by rw [hl]; exact List.mem_cons_self ..)
    refine .published hlinked.1 ?_ ?_ ?_ (.inr hlinked.2) hr <;> simp only [update_self]
  | adopt p x gone hc hp hx =>
    refine .of_update rfl ?_
    rintro rfl
    refine .adopted p hx ?_ ?_ ?_ rfl <;> simp only [update_self]
  | die p hc hp hlive =>
    refine .of_update rfl ?_
    rintro rfl
    have hknows := h.knows q
    rw [hp] at hknows
    obtain ⟨hinit, hchild, -⟩ := hknows
    refine .died hlive ?_ ?_ ?_ (fun x => ?_) hinit ⟨c, hc⟩
    · simp only [update_self]
    · simp only [update_self]
    · simp only [update_self]
    · by_cases hx : x = q
      · subst hx
        simpa only [update_self] using hchild x
      · simpa only [update_of_ne hx] using hchild x
  | reap p x seen hc hp hx =>
    refine .of_update rfl ?_
    rintro rfl
    refine .freed (.inl hx) (update_self ..) fun t ht => ?_
    have hused := (h.links t q ht).1
    rw [hx] at hused
    cases hused
  | number t x hx =>
    refine .of_update rfl ?_
    rintro rfl
    refine .numbered hx ?_ ?_ ?_ rfl <;> simp only [update_self, hx]
  | use t x r hl hr =>
    refine .of_update rfl ?_
    rintro rfl
    have hnumbered := h.numbered t q (by rw [hl]; exact List.mem_cons_self ..)
    refine .used hnumbered.1 ?_ ?_ ?_ hnumbered.2 hr <;> simp only [update_self]
  | abort x hx hnew =>
    refine .of_update rfl ?_
    rintro rfl
    exact .freed (.inr hx) (update_self ..) hnew
  | boot x hx hnew =>
    refine .of_update rfl ?_
    rintro rfl
    refine .published hx ?_ ?_ ?_ (.inl rfl) hnew <;> simp only [update_self]
  | _ => exact .of_same rfl

/-- A live process stays alive, or dies on its own CPU and without children. -/
theorem Inv.live_step
    (hp : (f.member p).state.live = true) :
    (f'.member p).state.live = true ∨
      (∀ x, (f'.member x).parent ≠ some p) ∧ f'.init ≠ some p ∧ ∃ d, f.cur d = some p := by
  have hdead := fun {st} => Procstate.ne_of_live (b := st) hp
  cases hs.grows h p with
  | calm hstate =>
    rcases hstate with he | ⟨-, hlive⟩
    · exact .inl (by rw [he]; exact hp)
    · exact .inl hlive
  | linked _ hused | published hused => exact absurd hused (hdead rfl)
  | adopted _ _ hstate => exact .inl (by rw [hstate]; exact hp)
  | died hlive hstate hparent hpid hchild hinit hcur => exact .inr ⟨hchild, hinit, hcur⟩
  | freed hstate => exact hstate.elim (absurd · (hdead rfl)) (absurd · (hdead rfl))
  | numbered hunused | used hunused => exact absurd hunused (hdead rfl)

/-- The first process never dies. -/
theorem Inv.init_step (i : σ) (hi : f'.init = some i) :
    (f'.member i).state.live = true := by
  rcases hs.init with he | ⟨-, j, hj, hlive⟩
  · have hlive := h.init i (he ▸ hi)
    rcases h.live_step hs hlive with hl | ⟨-, hne, -⟩
    · exact hl
    · exact absurd hi hne
  · rw [hj] at hi
    cases hi
    exact hlive

/-- A parent is alive. -/
theorem Inv.alive_step (q p : σ)
    (hq : (f'.member q).parent = some p) : (f'.member p).state.live = true := by
  have hold : (f'.member q).parent = (f.member q).parent → (f'.member p).state.live = true := by
    intro he
    rcases h.live_step hs (h.alive q p (he ▸ hq)) with hl | ⟨hchild, -⟩
    · exact hl
    · exact absurd hq (hchild q)
  cases hs.grows h q with
  | calm _ hparent | published _ _ hparent | died _ _ hparent | numbered _ _ hparent
  | used _ _ hparent => exact hold hparent
  | linked p' _ _ hparent _ _ hlive =>
    rw [hparent] at hq
    cases hq
    exact hlive
  | adopted _ _ _ hparent _ hinit => exact h.init_step hs p (by rw [hinit, ← hparent, hq])
  | freed _ hfreed =>
    rw [hfreed] at hq
    cases hq

/-- There is a first process while anyone is alive. -/
theorem Inv.root_step (p : σ)
    (hp : (f'.member p).state.live = true) : f'.init ≠ none := by
  have hold : f.init ≠ none → f'.init ≠ none := by
    intro hne
    rcases hs.init with he | ⟨hnone, -⟩
    · rwa [he]
    · exact absurd hnone hne
  have hdead := fun {st} => Procstate.ne_of_live (b := st) hp
  cases hs.grows h p with
  | calm hstate =>
    refine hold (h.root p ?_)
    rcases hstate with he | ⟨hlive, -⟩
    · rwa [← he]
    · exact hlive
  | linked _ hused hstate => exact absurd (hstate.trans hused) (hdead rfl)
  | adopted _ _ hstate => exact hold (h.root p (by rwa [← hstate]))
  | published _ _ _ _ hkept =>
    rcases hkept with hinit | hparent
    · rw [hinit]
      exact Option.some_ne_none p
    · obtain ⟨pp, hpp⟩ := Option.ne_none_iff_exists'.mp hparent
      exact hold (h.root pp (h.alive p pp hpp))
  | died _ hstate | numbered _ hstate | used _ hstate => exact absurd hstate (hdead rfl)
  | freed _ hfreed =>
    have hunused : (f'.member p).state = .unused := by rw [hfreed]; rfl
    exact absurd hunused (hdead rfl)

/-- A slot that nobody has linked has no parent. -/
theorem Inv.lone_step (q : σ)
    (hstate : (f'.member q).state = .unused ∨ (f'.member q).state = .used)
    (hq : ∀ t, q ∉ f'.links t) : (f'.member q).parent = none := by
  have hdead : ∀ {st : Procstate}, st ≠ .unused → st ≠ .used → (f'.member q).state ≠ st := by
    rintro st h1 h2 rfl
    exact hstate.elim h1 h2
  have hold : ∀ t, q ∉ f.links t :=
    (hs.links_old q hq).resolve_right (hdead (by decide) (by decide))
  cases hs.grows h q with
  | calm hcalm hparent =>
    rw [hparent]
    refine h.lone q ?_ hold
    rcases hcalm with he | ⟨-, hlive⟩
    · rwa [← he]
    · rcases hstate with he | he <;> rw [he] at hlive <;> cases hlive
  | linked _ _ _ _ _ _ _ hlinks =>
    obtain ⟨t, ht⟩ := hlinks
    exact absurd ht (hq t)
  | adopted p hp hsame =>
    rw [hsame] at hstate
    rw [h.lone q hstate hold] at hp
    cases hp
  | published _ hrun => exact absurd hrun (hdead (by decide) (by decide))
  | died _ hz => exact absurd hz (hdead (by decide) (by decide))
  | freed _ hfreed => rw [hfreed]; rfl
  | numbered hunused _ hparent | used hunused _ hparent =>
    rw [hparent]
    exact h.lone q (.inl hunused) hold

/-- Everyone but the first process has a parent. -/
theorem Inv.kept_step (q : σ)
    (hq : (f'.member q).state.live = true ∨ (f'.member q).state = .zombie) :
    f'.init = some q ∨ (f'.member q).parent ≠ none := by
  have hold : (f.member q).state.live = true ∨ (f.member q).state = .zombie →
      (f'.member q).parent = (f.member q).parent →
      f'.init = some q ∨ (f'.member q).parent ≠ none := by
    intro hq hparent
    rw [hparent]
    refine (h.kept q hq).imp_left fun hinit => ?_
    rcases hs.init with he | ⟨hnone, -⟩
    · rw [he, hinit]
    · rw [hinit] at hnone
      cases hnone
  have hdead : ∀ {st : Procstate}, st.live = false → st ≠ .zombie → (f'.member q).state ≠ st := by
    rintro st h1 h2 rfl
    rcases hq with hl | hz
    · rw [h1] at hl
      cases hl
    · exact h2 hz
  cases hs.grows h q with
  | calm hcalm hparent =>
    refine hold ?_ hparent
    rcases hcalm with he | ⟨hlive, -⟩
    · rwa [← he]
    · exact .inl hlive
  | linked _ hused hstate => exact absurd (hstate.trans hused) (hdead rfl (by decide))
  | adopted p hp _ hparent =>
    right
    rw [hparent]
    exact h.root p (h.alive q p hp)
  | published _ _ hparent _ hkept =>
    rw [hparent]
    exact hkept
  | died hlive _ hparent => exact hold (.inl hlive) hparent
  | freed _ hfreed =>
    have hunused : (f'.member q).state = .unused := by rw [hfreed]; rfl
    exact absurd hunused (hdead rfl (by decide))
  | numbered _ hstate | used _ hstate => exact absurd hstate (hdead rfl (by decide))

/-- A linked slot is being made and has a parent. -/
theorem Inv.links_step (t : Thread γ σ) (q : σ)
    (hq : q ∈ f'.links t) : (f'.member q).state = .used ∧ (f'.member q).parent ≠ none := by
  rcases hs.links_new hq with ⟨t', ht⟩ | hnew
  · obtain ⟨hused, hparent⟩ := h.links t' q ht
    cases hs.grows h q with
    | calm hcalm hsame =>
      refine ⟨?_, by rwa [hsame]⟩
      rcases hcalm with he | ⟨hlive, -⟩
      · rwa [he]
      · rw [hused] at hlive
        cases hlive
    | linked p _ hstate hp => exact ⟨by rwa [hstate], by rw [hp]; exact Option.some_ne_none p⟩
    | adopted p hp hstate hinit =>
      exact ⟨by rwa [hstate], by rw [hinit]; exact h.root p (h.alive q p hp)⟩
    | published _ _ _ _ _ hlinks | freed _ _ hlinks => exact absurd hq (hlinks t)
    | died hlive =>
      rw [hused] at hlive
      cases hlive
    | numbered hunused | used hunused =>
      rw [hused] at hunused
      cases hunused
  · exact hnew

/-! ## Pids stay distinct -/

theorem Inv.nextpid_step : 0 < f'.nextpid := by
  have hpos := h.nextpid
  rcases hs.pids with ⟨he, -⟩ | ⟨he, -⟩ <;> omega

/-- Every pid is below the next one. -/
theorem Inv.pid_step (q : σ) :
    0 ≤ (f'.member q).pid ∧ (f'.member q).pid < f'.nextpid := by
  have hpos := h.nextpid
  have hpid := h.pid q
  rcases hs.pids with ⟨hnext, hq⟩ | ⟨hnext, x, hx⟩
  · rcases hq q with he | he <;> rw [he, ← hnext]
    · exact hpid
    · exact ⟨le_refl 0, hpos⟩
  · rw [hx, hnext]
    by_cases hq : q = x
    · subst hq
      simp only [update_self]
      omega
    · simp only [update_of_ne hq]
      omega

/-- No two slots share a pid. -/
theorem Inv.distinct_step (p q : σ)
    (hpq : (f'.member p).pid = (f'.member q).pid) (hp : (f'.member p).pid ≠ 0) : p = q := by
  rcases hs.pids with ⟨-, hsame⟩ | ⟨-, x, hx⟩
  · have hold : ∀ y, (f'.member y).pid ≠ 0 → (f'.member y).pid = (f.member y).pid :=
      fun y hy => (hsame y).resolve_right hy
    have hq : (f'.member q).pid ≠ 0 := by rwa [← hpq]
    rw [hold p hp, hold q hq] at hpq
    exact h.distinct p q hpq fun he => hp ((hold p hp).trans he)
  · -- the new pid is above all others
    have hnew : ∀ y, y ≠ x → (f.member y).pid ≠ f.nextpid := fun y _ => by
      have := (h.pid y).2
      omega
    rw [hx] at hpq hp
    by_cases hpx : p = x
    · by_cases hqx : q = x
      · rw [hpx, hqx]
      · subst hpx
        simp only [update_self, update_of_ne hqx] at hpq
        exact absurd hpq.symm (hnew q hqx)
    · by_cases hqx : q = x
      · subst hqx
        simp only [update_self, update_of_ne hpx] at hpq
        exact absurd hpq (hnew p hpx)
      · simp only [update_of_ne hpx, update_of_ne hqx] at hpq hp
        exact h.distinct p q hpq hp

/-- A slot in use has a pid. -/
theorem Inv.named_step (q : σ)
    (hq : (f'.member q).state ≠ .unused) : (f'.member q).pid ≠ 0 := by
  have hold : (f'.member q).pid = (f.member q).pid → (f.member q).state ≠ .unused →
      (f'.member q).pid ≠ 0 := by
    intro hpid hne
    rw [hpid]
    exact h.named q hne
  cases hs.grows h q with
  | calm hcalm _ hpid =>
    refine hold hpid ?_
    rcases hcalm with he | ⟨hlive, -⟩
    · rwa [← he]
    · intro he
      rw [he] at hlive
      cases hlive
  | linked _ hused _ _ hpid | published hused _ _ hpid => exact hold hpid (by rw [hused]; decide)
  | adopted _ _ hstate _ hpid => exact hold hpid (by rwa [← hstate])
  | died hlive _ _ hpid =>
    refine hold hpid fun he => ?_
    rw [he] at hlive
    cases hlive
  | freed _ hfreed => exact absurd (by rw [hfreed]; rfl) hq
  | numbered _ hstate => exact absurd hstate hq
  | used _ _ _ hpid hnamed => rwa [hpid]

/-- A numbered slot is not yet in use. -/
theorem Inv.numbered_step (t : Thread γ σ) (q : σ)
    (hq : q ∈ f'.numbered t) : (f'.member q).state = .unused ∧ (f'.member q).pid ≠ 0 := by
  have hpos := h.nextpid
  rcases hs.numbered_new hq with ⟨t', ht⟩ | ⟨hunused, hpid⟩
  · obtain ⟨hunused, hpid⟩ := h.numbered t' q ht
    have hdead : ∀ {st : Procstate}, st ≠ .unused → (f.member q).state ≠ st := by
      rintro st hst rfl
      exact hst hunused
    cases hs.grows h q with
    | calm hcalm _ hsame =>
      refine ⟨?_, by rwa [hsame]⟩
      rcases hcalm with he | ⟨hlive, -⟩
      · rwa [he]
      · rw [hunused] at hlive
        cases hlive
    | linked _ hused | published hused => exact absurd hused (hdead (by decide))
    | adopted _ _ hstate _ hsame => exact ⟨by rwa [hstate], by rwa [hsame]⟩
    | died hlive =>
      rw [hunused] at hlive
      cases hlive
    | freed hstate => exact hstate.elim (absurd · (hdead (by decide))) (absurd · (hdead (by decide)))
    | numbered _ hstate _ hnew => exact ⟨hstate, by rw [hnew]; omega⟩
    | used _ _ _ _ _ hnumbered => exact absurd hq (hnumbered t)
  · exact ⟨hunused, by rw [hpid]; omega⟩

/-! ## The lock and its holder -/

/-- A process is on one CPU at most. -/
theorem Inv.once_step (a b : γ) (p : σ)
    (ha : f'.cur a = some p) (hb : f'.cur b = some p) : a = b := by
  cases hs.turns with
  | enters x hc hx _ hcur _ =>
    rw [hcur, update_apply] at ha hb
    split at ha
    · next hac =>
      split at hb
      · next hbc => rw [hac, hbc]
      · cases ha
        exact absurd hb (hx b)
    · split at hb
      · cases hb
        exact absurd ha (hx a)
      · exact h.once a b p ha hb
  | leaves x hc hx _ hcur _ =>
    rw [hcur, update_apply] at ha hb
    split at ha
    · cases ha
    · split at hb
      · cases hb
      · exact h.once a b p ha hb
  | same _ hcur | moves _ _ _ _ _ _ hcur | takes _ _ _ _ _ _ hcur | drops _ _ _ _ hcur =>
    rw [hcur] at ha hb; exact h.once a b p ha hb

/-- A process off the CPUs is outside `wait_lock`. -/
theorem Inv.rest_step (p : σ)
    (hp : ∀ d, f'.cur d ≠ some p) : f'.phase p = .out := by
  have hother : ∀ {x : σ} {φ : Phase σ}, f.cur c = some x → f'.cur = f.cur →
      f'.phase = update f.phase x φ → f'.phase p = .out := by
    intro x φ hx hcur hphase
    rw [hcur] at hp
    have hpx : p ≠ x := by
      rintro rfl
      exact hp c hx
    rw [hphase, update_of_ne hpx]
    exact h.rest p hp
  cases hs.turns with
  | same _ hcur hphase =>
    rw [hphase]
    rw [hcur] at hp
    exact h.rest p hp
  | moves x φ hc _ _ _ hcur hphase | takes x φ hc _ _ _ hcur hphase | drops x hc _ _ hcur hphase =>
    exact hother hc hcur hphase
  | enters x hc hx _ hcur hphase =>
    rw [hphase]
    refine h.rest p fun d hd => ?_
    by_cases hdc : d = c
    · subst hdc
      rw [hc] at hd
      cases hd
    · exact hp d (by rw [hcur, update_of_ne hdc, hd])
  | leaves x hc hx _ hcur hphase =>
    rw [hphase]
    by_cases hpx : p = x
    · rw [hpx, hx]
    · refine h.rest p fun d hd => ?_
      by_cases hdc : d = c
      · subst hdc
        rw [hc] at hd
        exact hpx (Option.some.inj hd).symm
      · exact hp d (by rw [hcur, update_of_ne hdc, hd])

/-- `wait_lock` is held by the CPU whose process is inside it. -/
theorem Inv.lock_step (d : γ) :
    f'.lock = some d ↔ ∃ p, f'.cur d = some p ∧ f'.phase p ≠ .out := by
  cases hs.turns with
  | same hlock hcur hphase =>
    rw [hlock, hcur, hphase]
    exact h.lock d
  | moves x φ hc hx hφ hlock hcur hphase =>
    rw [hlock, hcur, hphase, h.lock d]
    refine exists_congr fun p => and_congr_right fun _ => ?_
    by_cases hpx : p = x
    · subst hpx
      rw [update_self]
      exact iff_of_true hx hφ
    · rw [update_of_ne hpx]
  | takes x φ hc hl hφ hlock hcur hphase =>
    rw [hlock, hcur, hphase]
    constructor
    · intro he
      cases he
      exact ⟨x, hc, by rwa [update_self]⟩
    · rintro ⟨p, hp, hne⟩
      by_cases hpx : p = x
      · subst hpx
        rw [h.once d c p hp hc]
      · rw [update_of_ne hpx, h.free hl] at hne
        exact absurd rfl hne
  | drops x hc hx hlock hcur hphase =>
    rw [hlock, hcur, hphase]
    refine iff_of_false nofun ?_
    rintro ⟨p, -, hne⟩
    by_cases hpx : p = x
    · subst hpx
      rw [update_self] at hne
      exact hne rfl
    · rw [update_of_ne hpx, h.holder hc hx p hpx] at hne
      exact hne rfl
  | enters x hc hx hlock hcur hphase =>
    rw [hlock, hcur, hphase, h.lock d]
    by_cases hdc : d = c
    · subst hdc
      refine iff_of_false ?_ ?_
      · rintro ⟨p, hp, -⟩
        rw [hc] at hp
        cases hp
      · rintro ⟨p, hp, hne⟩
        rw [update_self] at hp
        cases hp
        exact hne (h.rest x hx)
    · rw [update_of_ne hdc]
  | leaves x hc hx hlock hcur hphase =>
    rw [hlock, hcur, hphase, h.lock d]
    by_cases hdc : d = c
    · subst hdc
      refine iff_of_false ?_ ?_
      · rintro ⟨p, hp, hne⟩
        rw [hc] at hp
        cases hp
        exact hne hx
      · rintro ⟨p, hp, -⟩
        rw [update_self] at hp
        cases hp
    · rw [update_of_ne hdc]

/-- What a phase knows stays true. -/
theorem Inv.knows_step (p : σ) : f'.Knows p (f'.phase p) := by
  cases hs with
  | calm member asleep due hm ha hd => exact h.knows_calm hm rfl ha
  | tick | enter | leave => exact (h.knows p).mono rfl (fun _ => rfl) (fun _ => id) (subset_refl _)
  | charge =>
    exact h.knows_update rfl rfl id rfl (subset_refl _) rfl
  | take x φ hc hl hφ =>
    by_cases hp : p = x
    · subst hp
      simp only [update_self]
      cases hφ with
      | fork => trivial
      | exit hinit => exact ⟨hinit, nofun⟩
      | wait => exact nofun
    · simp only [update_of_ne hp, h.free hl]
      trivial
  | drop x hc hx | doze x asleep hc hx | die x hc hx | reap x q seen hc hx =>
    exact h.knows_moved hc (by rw [hx]; exact nofun) rfl trivial
  | link x q hc hx =>
    exact h.knows_moved (φ := .held) hc (by rw [hx]; exact nofun) rfl trivial
  | publish =>
    exact h.knows_update rfl rfl nofun rfl (subset_refl _) rfl
  | think x φ hc hφ => exact h.knows_moved hc hφ.ne_out.1 rfl (hφ.knows (h.knows x))
  | adopt x q gone hc hx hq =>
    have hk := h.knows x
    rw [hx] at hk
    refine h.knows_moved hc (by rw [hx]; exact nofun) rfl ⟨hk.1, rfl, ?_, nofun⟩
    intro y hy
    by_cases hyq : y = q
    · subst hyq
      simpa only [update_self] using hk.1
    · simpa only [update_of_ne hyq] using hk.2 y (hy.resolve_left hyq)
  | wake x q member asleep hc hm ha hq =>
    by_cases hp : p = x
    · subst hp
      simp only [update_self]
      have hk : Knows { f with member := member, asleep := asleep } p (f.phase p) :=
        h.knows_calm hm rfl ha
      cases hphase : f.phase p with
      | calling | rousing =>
        rw [hphase] at hk hq
        obtain ⟨hne, htarget, hgone, hwoken⟩ := hk
        refine ⟨hne, htarget, hgone, ?_⟩
        rintro i (rfl | hi) ht
        · exact hq ht
        · exact hwoken i hi ht
      | _ =>
        rw [hphase] at hk
        exact hk
    · simp only [update_of_ne hp]
      exact h.knows_calm hm rfl ha
  | number t x hx | make x hx => exact h.knows_update rfl rfl id rfl (subset_refl _) rfl
  | use => exact h.knows_update rfl rfl nofun rfl (subset_refl _) rfl
  | abort x hx hnew =>
    exact h.knows_update rfl (h.lone x (.inr hx) hnew).symm nofun rfl (subset_refl _) rfl
  | boot x hx hnew hi hcur =>
    have hout : f.phase p = .out := h.rest p fun d hd => by
      rw [hcur d] at hd
      cases hd
    simp only [hout]
    trivial

/-! ## No exit is lost -/

/-- No wakeup is lost. -/
theorem Inv.lost_step (p q : σ)
    (hparent : (f'.member q).parent = some p) (hz : (f'.member q).state = .zombie)
    (ha : p ∈ f'.asleep) : f'.Called p := by
  cases hs with
  | calm member asleep due hm hsub hd => exact h.called_calm hm hparent hz (hsub ha)
  | tick | enter | leave => exact h.lost p q hparent hz ha
  | charge | number | make => exact h.called_update hparent hz ha fun hp hz => ⟨hp, hz⟩
  | take x φ hc hl hφ =>
    exact Called.update (h.lost p q hparent hz ha) rfl (by rw [h.free hl x]; exact nofun)
  | drop x hc hx => exact Called.update (h.lost p q hparent hz ha) rfl (by rw [hx]; exact nofun)
  | doze x asleep hc hx hsub =>
    rcases hsub ha with rfl | ha
    · -- it has just seen that it has no exited child
      have hk := h.knows p
      rw [hx] at hk
      exact absurd hz (hk q (Set.mem_univ q) hparent)
    · exact Called.update (h.lost p q hparent hz ha) rfl (by rw [hx]; exact nofun)
  | link x y hc hx hlive hy hnew =>
    have hcalled : f.Called p :=
      h.called_update hparent hz ha fun _ hz => by rw [hy] at hz; cases hz
    exact hcalled.update rfl (by rw [hx]; exact nofun)
  | publish | use | abort | boot => exact h.called_update hparent hz ha fun _ hz => by cases hz
  | think x φ hc hφ =>
    obtain ⟨r, gone, woken, hr, hw⟩ := h.lost p q hparent hz ha
    have hrx : r ≠ x := by
      rintro rfl
      rw [hr] at hφ
      cases hφ
      exact hw (Set.mem_univ p)
    exact ⟨r, gone, woken, by simp only [update_of_ne hrx, hr], hw⟩
  | adopt x y gone hc hx hy =>
    by_cases hq : q = y
    · -- the adopting process will be called
      subst hq
      simp only [update_self] at hparent
      refine ⟨x, insert q gone, ∅, ?_, nofun⟩
      simp only [update_self, hparent]
    · simp only [update_of_ne hq] at hparent hz
      exact Called.update (h.lost p q hparent hz ha) rfl (by rw [hx]; exact nofun)
  | wake x y member asleep hc hm hsub hy =>
    obtain ⟨r, gone, woken, hr, hw⟩ := h.called_calm hm hparent hz (hsub ha)
    by_cases hrx : r = x
    · subst hrx
      rw [hr] at hy
      have hpy : p ≠ y := by
        rintro rfl
        exact hy rfl ha
      refine ⟨r, gone, insert y woken, ?_, ?_⟩
      · simp only [update_self, hr, Phase.woke]
      · rintro (he | hmem)
        · exact hpy he
        · exact hw hmem
    · exact ⟨r, gone, woken, by simp only [update_of_ne hrx, hr], hw⟩
  | die x hc hx hlive =>
    by_cases hq : q = x
    · -- its parent has been woken
      subst hq
      have hk := h.knows q
      rw [hx] at hk
      simp only [update_self] at hparent
      exact absurd ha (hk.2.2 p hparent)
    · simp only [update_of_ne hq] at hparent hz
      exact Called.update (h.lost p q hparent hz ha) rfl (by rw [hx]; exact nofun)
  | reap x y seen hc hx hy =>
    have hcalled : f.Called p := h.called_update hparent hz ha fun _ hz => by cases hz
    exact hcalled.update rfl (by rw [hx]; exact nofun)

/-! ## The invariant, and what follows from it -/

/-- Every step of the protocol keeps its invariant. -/
theorem Inv.step : f'.Inv where
  lock := h.lock_step hs
  rest := h.rest_step hs
  once := h.once_step hs
  knows := h.knows_step hs
  root := h.root_step hs
  init := h.init_step hs
  lone := h.lone_step hs
  alive := h.alive_step hs
  kept := h.kept_step hs
  links := h.links_step hs
  nextpid := h.nextpid_step hs
  pid := h.pid_step hs
  named := h.named_step hs
  distinct := h.distinct_step hs
  numbered := h.numbered_step hs
  lost := h.lost_step hs

/-- A zombie is freed by its parent, in `wait`. -/
theorem Inv.reaped_by
    (hz : (f.member q).state = .zombie) (hu : (f'.member q).state = .unused) :
    ∃ p seen, f.cur c = some p ∧ f.phase p = .looking seen q ∧ (f.member q).parent = some p := by
  have hupdate : ∀ {x : σ} {y : Member σ}, (update f.member x y q).state = .unused →
      y.state ≠ .unused ∨ (f.member x).state ≠ .zombie → False := by
    intro x y hstate hor
    by_cases hq : q = x
    · subst hq
      rw [update_self] at hstate
      exact hor.elim (absurd hstate) (absurd hz)
    · rw [update_of_ne hq, hz] at hstate
      cases hstate
  have hcalm : ∀ {member : σ → Member σ}, (∀ q, (f.member q).Calm (member q)) →
      (member q).state = .unused → False := by
    intro member hm hstate
    rcases (hm q).state with he | ⟨hlive, -⟩
    · rw [he, hz] at hstate
      cases hstate
    · rw [hz] at hlive
      cases hlive
  cases hs with
  | calm member asleep due hm ha hd | wake p x member asleep hc hm ha hx => exact (hcalm hm hu).elim
  | charge x due hx hrun hd => exact (hupdate hu (.inr (by rw [hrun]; decide))).elim
  | link p x hc hp hlive hx | number t x hx | make x hx | abort x hx =>
    exact (hupdate hu (.inr (by rw [hx]; decide))).elim
  | publish | die | use | boot => exact (hupdate hu (.inl nofun)).elim
  | adopt p x =>
    by_cases hq : q = x
    · subst hq
      simp only [update_self, hz] at hu
      cases hu
    · simp only [update_of_ne hq, hz] at hu
      cases hu
  | reap p x seen hc hp hx =>
    by_cases hq : q = x
    · subst hq
      have hk := h.knows p
      rw [hp] at hk
      exact ⟨p, seen, hc, hp, hk.2⟩
    · simp only [update_of_ne hq, hz] at hu
      cases hu
  | _ =>
    rw [hz] at hu
    cases hu

/-- A parent is replaced by the first process only. -/
theorem Inv.parent_step {p' : σ}
    (hp : (f.member q).parent = some p) (hp' : (f'.member q).parent = some p') :
    p' = p ∨ f'.init = some p' := by
  have hold : (f'.member q).parent = (f.member q).parent → p' = p ∨ f'.init = some p' := by
    intro he
    rw [he, hp] at hp'
    exact .inl (Option.some.inj hp').symm
  cases hs.grows h q with
  | calm _ hparent | published _ _ hparent | died _ _ hparent | numbered _ _ hparent
  | used _ _ hparent => exact hold hparent
  | linked _ _ _ _ _ hlone =>
    rw [hp] at hlone
    cases hlone
  | adopted _ _ _ hparent _ hinit => exact .inr (by rw [hinit, ← hparent, hp'])
  | freed _ hfreed =>
    rw [hfreed] at hp'
    cases hp'

/-- A process keeps its pid while it lives. -/
theorem Inv.pid_live
    (hp : (f.member p).state.live = true) : (f'.member p).pid = (f.member p).pid := by
  have hdead := fun {st} => Procstate.ne_of_live (b := st) hp
  cases hs.grows h p with
  | calm _ _ hpid | linked _ _ _ _ hpid | adopted _ _ _ _ hpid | published _ _ _ hpid
  | died _ _ _ hpid | used _ _ _ hpid => exact hpid
  | freed hstate => exact hstate.elim (absurd · (hdead rfl)) (absurd · (hdead rfl))
  | numbered hunused => exact absurd hunused (hdead rfl)

/-- A reaped slot has no pid. -/
theorem Inv.reaped_pid
    (hz : (f.member q).state = .zombie) (hu : (f'.member q).state = .unused) :
    (f'.member q).pid = 0 := by
  have hne : (f'.member q).state ≠ (f.member q).state := by
    rw [hz, hu]
    exact nofun
  cases hs.grows h q with
  | calm hstate =>
    rcases hstate with he | ⟨hlive, -⟩
    · exact absurd he hne
    · rw [hz] at hlive
      cases hlive
  | linked _ _ hstate | adopted _ _ hstate => exact absurd hstate hne
  | published _ hstate | died _ hstate =>
    rw [hu] at hstate
    cases hstate
  | freed _ hfreed =>
    rw [hfreed]
    rfl
  | numbered hunused | used hunused =>
    rw [hz] at hunused
    cases hunused

end Step

end Family

end Xv6.Smp
