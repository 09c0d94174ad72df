import Upciedev.Foundations.Pool
import Upciedev.Locking.Mutex
import Upciedev.Model.Module

/-!
# Hot-swapping boards under open files

Who calls a client driver, and when: a file is opened and released in turns, a device probed and,
once a probe of it has succeeded, removed; clients make any requests on any files. All of them run
at the same time, with every operation of the driver as one step.
-/
namespace Upciedev

open Foundations Program

variable {ε : Type}

/-- The calls of one party follow each other. -/
inductive Party where
  | file (filp : File)
  | device (dev : PciDev)
  | client (n : ℕ)
  deriving DecidableEq

inductive PartyCall where
  | file (c : FileCall)
  | probe (fuel : ℕ) (dev : PciDev) (tmpParentNum : ℤ)
  | remove (fuel : ℕ) (dev : PciDev)

def PartyCall.program : PartyCall → Kernel ℤ
  | file c => c.program
  | probe fuel dev tmpParentNum => do
    let (result, _) ← pciedevProbeExp fuel dev tmpParentNum
    pure result
  | remove fuel dev => pciedevRemoveExp fuel dev

/-- Where a party is between its calls. -/
inductive Station where
  | closed (filp : File)
  | opened (filp : File)
  | unbound (dev : PciDev)
  | bound (dev : PciDev)
  | client
  deriving DecidableEq

def FileCall.IsRequest : FileCall → Prop
  | .openExp .. | .releaseExp _ => False
  | _ => True

/-- The kernel opens a file that is not open and releases it once, and probes a device that has no
board and removes one that has. -/
def kernelClient : Client PartyCall Station ℤ where
  allowed
    | .closed filp, c => ∃ dev minor, c = .file (.openExp dev minor filp)
    | .opened filp, c => c = .file (.releaseExp filp)
    | .unbound dev, c => ∃ fuel tmpParentNum, c = .probe fuel dev tmpParentNum
    | .bound dev, c => ∃ fuel, c = .remove fuel dev
    | .client, c => ∃ request : FileCall, request.IsRequest ∧ c = .file request
  next
    | .closed filp, _, result => if result = 0 then .opened filp else .closed filp
    | .opened filp, _, _ => .closed filp
    | .unbound dev, _, result => if result = 0 then .bound dev else .unbound dev
    | .bound dev, _, _ => .unbound dev
    | .client, _, _ => .client

def hotplugSystem (E : Environment ε) :
    System driverInterface PartyCall Station ℤ (Mutexed ε) Party where
  handler := mutexDriver E
  client := kernelClient
  program _ c := c.program

abbrev HotplugPool (ε : Type) := Pool driverInterface PartyCall Station ℤ (Mutexed ε) Party
abbrev HotplugThread := Thread driverInterface PartyCall Station ℤ

def Party.start : Party → Station
  | file filp => .closed filp
  | device dev => .unbound dev
  | client _ => .client

def hotplugPool (w : World ε) : HotplugPool ε where
  shared := { world := w, locked := fun _ => false }
  thread t := .idle t.start

/-- The driver data after the set-up; no device points to an entry yet. -/
structure Loaded (E : Environment ε) (w : World ε) : Prop where
  setUp : ∃ w₀ tr, upciedevInitModuleExp.Run (driver E) w₀ tr 0 w
  drvdata dev : w.drvdata dev = none

def Station.Of : Station → Party → Prop
  | .closed filp, t | .opened filp, t => t = .file filp
  | .unbound dev, t | .bound dev, t => t = .device dev
  | .client, t => ∃ n, t = .client n

/-- A party is at a station of its own, and makes a call it may make there. -/
def AtHome (t : Party) : HotplugThread → Prop
  | .idle l => l.Of t
  | .calling l c _ _ => l.Of t ∧ kernelClient.allowed l c

theorem start_of (t : Party) : t.start.Of t := by
  cases t with
  | client n => exact ⟨n, rfl⟩
  | file | device => rfl

theorem next_of {t : Party} {l : Station} (h : l.Of t) (c : PartyCall) (result : ℤ) :
    (kernelClient.next l c result).Of t := by
  cases l with
  | closed filp | unbound dev =>
    unfold kernelClient
    dsimp only
    split_ifs <;> exact h
  | opened | bound | client => exact h

theorem atHome_step {E : Environment ε} {s s' : HotplugPool ε} (h : ∀ t, AtHome t (s.thread t))
    (hs : (hotplugSystem E).Step s s') : ∀ t, AtHome t (s'.thread t) := by
  cases hs with
  | @start t l c hidle hallowed =>
    have hhome := h t
    rw [hidle] at hhome
    exact Pool.update_forall h ⟨hhome, hallowed⟩
  | @perform t l c tr op k r x hcall hop =>
    have hhome := h t
    rw [hcall] at hhome
    exact Pool.update_forall h hhome
  | @finish t l c tr a hret =>
    have hhome := h t
    rw [hret] at hhome
    exact Pool.update_forall h (next_of hhome.1 c a)

theorem hotplug_atHome {E : Environment ε} {w : World ε} {s : HotplugPool ε}
    (h : (hotplugSystem E).Steps (hotplugPool w) s) : ∀ t, AtHome t (s.thread t) :=
  h.invariant (P := fun s => ∀ t, AtHome t (s.thread t)) (fun _ _ h hs => atHome_step h hs) start_of

end Upciedev
