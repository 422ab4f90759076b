import AmqpBroker.Model.Broker

/-!
# A connection by itself

The thread of one connection with everything else reduced to what it does to the shared
memory: before each step of the thread the others may have left the memory in any state.
-/

namespace AmqpBroker

open Foundations

/-- A connection with the shared memory as its last step left it and the calls it made. -/
structure Thread where
  conn : Conn
  store : Store
  trace : List Event

namespace Thread

/-- The thread inside `state_machine_main`, with whatever its buffers hold. -/
def start (cs : ConnectionState) (socket : Socket) (store : Store) : Thread :=
  { conn := { machine := .wait, point := .testRound, cs := cs, socket := socket }
    store := store
    trace := [] }

/-- The thread takes its next step on the memory as it finds it. Its calls of `write` take all
they are given; they could as well return anything else, since nobody looks at it. -/
def step (grain : Grain) (th : Thread) (found : Store) : Except Abort Thread :=
  match threadStep grain th.conn.machine th.conn.point
      { cs := th.conn.cs, socket := th.conn.socket, store := found, trace := [] } with
  | .ok ((machine, point), w) =>
    .ok { conn := { machine := machine, point := point, cs := w.cs, socket := w.socket }
          store := w.store
          trace := th.trace ++ w.trace }
  | .error reason => .error reason

/-- What is seen of a thread from outside: its state, what it left in the shared memory and
its calls, with their arguments and what they returned. -/
def observed (th : Thread) : MachineState × Store × List Event :=
  (th.conn.machine, th.store, th.trace)

end Thread

end AmqpBroker
