import NoteCell.Suspension.Registry

/-!
Many waits on one registry. A wait is registered when it is first polled, and polled again until it
has its answer; one that has ended, or was dropped, is gone.
-/
namespace NoteCell

inductive Wait where
  | fresh (cell prompt : String)
  | registered (id : Nat)
  | gone
deriving DecidableEq, Repr

inductive Poll where
  | pending
  | ready (value : String)
  | failed (e : SuspensionError)
  | gone
deriving DecidableEq, Repr

structure Desk where
  registry : Registry
  waits : List Wait
  -- All events so far, in order.
  events : List SuspendEvent
deriving DecidableEq, Repr

inductive DeskCommand where
  | suspend (cell prompt : String)
  | poll (wait : Nat)
  | resume (id : Nat) (value : String)
  | drop (wait : Nat)
  | hangUp
deriving DecidableEq, Repr

inductive DeskAnswer where
  | wait (n : Nat)
  | poll (p : Poll)
  | resumed (outcome : Except SuspensionError Unit)
  | done

namespace Desk

def new : Desk := ⟨.new, [], []⟩

variable (d : Desk)

def setWait (n : Nat) (w : Wait) : Desk := { d with waits := d.waits.set n w }

def pollFresh (n : Nat) (cell prompt : String) : Poll × Desk :=
  match d.registry.register cell prompt with
  | (.ok event, registry) =>
    (.pending,
      { d.setWait n (.registered event.id) with registry, events := d.events ++ [event] })
  | (.error e, registry) => (.failed e, { d.setWait n .gone with registry })

def pollRegistered (n id : Nat) : Poll × Desk :=
  match d.registry.collect id with
  | (some value, registry) => (.ready value, { d.setWait n .gone with registry })
  | (none, _) => (.pending, d)

def poll (n : Nat) : Poll × Desk :=
  match d.waits[n]? with
  | some (.fresh cell prompt) => d.pollFresh n cell prompt
  | some (.registered id) => d.pollRegistered n id
  | some .gone | none => (.gone, d)

def drop (n : Nat) : Desk :=
  match d.waits[n]? with
  | some (.registered id) => { d.setWait n .gone with registry := d.registry.giveUp id }
  | _ => d.setWait n .gone

def run : DeskCommand → DeskAnswer × Desk
  | .suspend cell prompt =>
    (.wait d.waits.length, { d with waits := d.waits ++ [.fresh cell prompt] })
  | .poll n =>
    let (p, d) := d.poll n
    (.poll p, d)
  | .resume id value =>
    let (outcome, registry) := d.registry.resume id value
    (.resumed outcome, { d with registry })
  | .drop n => (.done, d.drop n)
  | .hangUp => (.done, { d with registry := d.registry.hangUp })

end Desk
end NoteCell
