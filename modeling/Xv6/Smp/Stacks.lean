import Xv6.Smp.System

/-!
# What kernel stacks look like

Which function can wait below which on a process's kernel stack. Most functions of this code are
entered by a jump from a system call and have nothing below them; only interrupt handlers, `wakeup`,
`yield` and `sleep` are called. The shape matters for `wait_lock`: a function that runs under it is on
top of the stack, or waits for a `wakeup` it called itself.
-/

namespace Xv6.Smp

open Base

variable {n : Nat}

/-- The task is part of `clockintr` before its `wakeup`. -/
def Task.clock : Task → Bool
  | .clockintr | .updateTime _ | .updateTimeIn _ | .updateTimeOut _ => true
  | _ => false

/-- A call of `wakeup` with one channel. -/
def Task.plain : Task → Bool
  | .wakeup _ [] _ | .wakeupIn _ [] _ | .wakeupOut _ [] _ => true
  | _ => false

/-- The functions that run a task. -/
def Task.calledBy (t : Task) : Frame → Bool
  | .reparent .. | .exitLock _ => t.plain
  | .kerneltrap _ | .killed (.trap _) => true
  | .kernel _ | .exitFiles _ => !t.clock
  | _ => false

def Frame.clock : Frame → Bool
  | .task t => t.clock
  | _ => false

/-- The function runs with `wait_lock` held, on top of the given ones. -/
def Frame.waits (rest : List Below) : Frame → Bool
  | .killed .wait | .killedIn .wait | .killedOut .wait _ | .sleep _ .wait | .sleepIn _ .wait
  | .forkParent .. | .forkWaitOut .. | .reparent .. | .exitWake _ | .exitLock _ | .exitIn _
  | .exitWaitOut | .waitScan .. | .waitLock .. | .waitIn .. | .waitOut .. | .waitFound ..
  | .waitNone .. | .waitEnd _ => true
  | .task _ =>
    match rest.head?.map Subtype.val with
    | some (.reparent ..) | some (.exitLock _) => true
    | _ => false
  | _ => false

/-- The function can be interrupted. -/
def Frame.quiet (rest : List Below) (f : Frame) : Bool := !f.waits rest && !f.clock

/-- The functions that call `sleep` with this lock. -/
def Frame.sleeper : SleepLock → Frame → Bool
  | .wait, .waitScan _ 0 false => true
  | .other, .kernel _ | .other, .exitFiles _ => true
  | _, _ => false

/-- Whether `f` can be on top of `g`, and that on top of the others. -/
def Frame.over (f g : Frame) (rest : List Below) : Bool :=
  match f with
  | .task t => t.calledBy g
  | .kerneltrap _ | .yield | .yieldIn | .yieldSched | .yieldOut => g.quiet rest
  | .sleep _ lk | .sleepIn _ lk | .sleepSet _ lk | .sleepSched lk | .sleepTidy lk | .sleepOut lk
  | .sleepBack lk => g.sleeper lk
  | _ => false

/-- The channel that `sleep` is called with under a lock. -/
def SleepLock.Fits (p : Slot) (chan : Chan) : SleepLock → Prop
  | .wait => chan = .proc p
  | .other => outside chan = true

/-- What a function on the stack of `p` was called with. -/
def Frame.Okay (init : Option Slot) (p : Slot) : Frame → Prop
  | .sleep chan lk | .sleepIn chan lk | .sleepSet chan lk => lk.Fits p chan
  | .exitFiles _ | .exitWait _ | .reparent .. | .exitWake _ | .exitLock _ | .exitIn _ =>
    init ≠ some p
  | _ => True

/-- The functions on the stack of `p`, from the top. -/
def Shape (init : Option Slot) (p : Slot) : Frame → List Below → Prop
  | f, [] => f.Okay init p ∧ f.clock = false
  | f, g :: rest => f.Okay init p ∧ f.over g.1 rest = true ∧ Shape init p g.1 rest

/-- The thread has not started, or never will go on. -/
def Stack.Spent (st : Stack) : Prop := st.rest = [] ∧ (st.top = .forkret ∨ st.top = .zombie)

namespace Shape

variable {init : Option Slot} {p : Slot} {f g : Frame} {rest : List Below}

theorem okay (h : Shape init p f rest) : f.Okay init p := by
  cases rest with
  | nil => exact h.1
  | cons g rest => exact h.1

/-- The function goes on at another point, or another one takes its place. -/
theorem move (h : Shape init p f rest) (hover : ∀ x r, f.over x r = true → g.over x r = true)
    (hokay : g.Okay init p) (hclock : g.clock = true → f.clock = true) :
    Shape init p g rest := by
  cases rest with
  | nil => exact ⟨hokay, Bool.eq_false_iff.mpr fun hc => Bool.eq_false_iff.mp h.2 (hclock hc)⟩
  | cons x rest => exact ⟨hokay, hover x.1 rest h.2.1, h.2.2⟩

/-- The function goes on at another point with the same callers. -/
theorem goes (h : Shape init p f rest) (hokay : g.Okay init p)
    (hsame : (g.over, g.clock) = (f.over, f.clock)) : Shape init p g rest := by
  obtain ⟨hover, hclock⟩ := Prod.mk.inj hsame
  exact h.move (fun _ _ => hover ▸ id) hokay (hclock ▸ id)

/-- Nothing is below a function that is not called. -/
theorem bottom (h : Shape init p f rest) (hover : ∀ g r, f.over g r = false) : rest = [] := by
  cases rest with
  | nil => rfl
  | cons g rest =>
    have htrue := h.2.1
    rw [hover g.1 rest] at htrue
    cases htrue

/-- The first process is none of those whose stack matters. -/
theorem boot {init' : Option Slot} (h : Shape init p f rest) (hp : init' ≠ some p) :
    Shape init' p f rest := by
  have hokay : ∀ f : Frame, f.Okay init p → f.Okay init' p := by
    intro f hf
    cases f <;> first | exact hf | exact hp
  induction rest generalizing f with
  | nil => exact ⟨hokay f h.1, h.2⟩
  | cons g rest ih => exact ⟨hokay f h.1, h.2.1, ih h.2.2⟩

end Shape

end Xv6.Smp
