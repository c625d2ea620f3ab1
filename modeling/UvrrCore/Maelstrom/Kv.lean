import UvrrCore.OrdMap
import UvrrCore.CellReplay
import Mathlib.Data.String.Basic

/-!
# The replicated key-value service

`Kv` is the service of the bench: reads, writes and compare-and-sets over entries kept by the
text of their key. Values are JSON values: `V` with its equality test, and their text is a
parameter, since the JSON library is not part of the repository.

Seen at one slot a request is an operation on a cell, and requests executed one after the other
are the run of their operations. So what a redelivered request does is decided slot by slot: a
write hides what was there, and without one a value goes along the links of the compare-and-sets,
which a second pass may follow further than the first.

## Main results

* `get?_executeAll`: at each slot, executing requests is running their operations.
* `redelivery_converges_iff`: when a redelivered tail leaves the entries of one delivery.
-/

namespace UvrrCore

namespace Maelstrom

variable {V : Type}

/-- A request of the service, with the identity of the operation that carries it. -/
inductive KvRequest (V : Type) where
  | read (clientId requestNum : UInt64) (key : V)
  | write (clientId requestNum : UInt64) (key value : V)
  | cas (clientId requestNum : UInt64) (key old new : V)
deriving DecidableEq

/-- The answer of the service. -/
inductive KvResponse (V : Type) where
  | readOk (clientId requestNum : UInt64) (value : V)
  | writeOk (clientId requestNum : UInt64)
  | casOk (clientId requestNum : UInt64)
  | failed (clientId requestNum : UInt64) (code : UInt32) (text : String)
deriving DecidableEq

namespace KvRequest

def ids : KvRequest V → UInt64 × UInt64
  | .read clientId requestNum _ => (clientId, requestNum)
  | .write clientId requestNum _ _ => (clientId, requestNum)
  | .cas clientId requestNum _ _ _ => (clientId, requestNum)

def key : KvRequest V → V
  | .read _ _ key => key
  | .write _ _ key _ => key
  | .cas _ _ key _ _ => key

/-- What a request does to the cell of its own key. -/
def op : KvRequest V → Cell.Op V
  | .read _ _ _ => .read
  | .write _ _ _ value => .write value
  | .cas _ _ _ old new => .cas old new

end KvRequest

def keyDoesNotExist : UInt32 := 20

def preconditionFailed : UInt32 := 22

/-- The service: its entries, by the text of the key. -/
structure Kv (V : Type) where
  entries : OrdMap String V

namespace Kv

/-- The service before any request. -/
def new : Kv V where
  entries := OrdMap.empty

section Executing

variable [BEq V] (toText : V → String)

/-- One request executed: the service after it, and the answer. -/
def execute (kv : Kv V) (request : KvRequest V) : Kv V × KvResponse V :=
  let clientId := request.ids.1
  let requestNum := request.ids.2
  match request with
  | .read _ _ key =>
    match kv.entries.get? (toText key) with
    | some value => (kv, .readOk clientId requestNum value)
    | none => (kv, .failed clientId requestNum keyDoesNotExist "key does not exist")
  | .write _ _ key value =>
    ({ kv with entries := kv.entries.insert (toText key) value }, .writeOk clientId requestNum)
  | .cas _ _ key old new =>
    match kv.entries.get? (toText key) with
    | none => (kv, .failed clientId requestNum keyDoesNotExist "key does not exist")
    | some current =>
      if current == old then
        ({ kv with entries := kv.entries.insert (toText key) new }, .casOk clientId requestNum)
      else
        (kv, .failed clientId requestNum preconditionFailed
          ("expected " ++ toText old ++ ", but had " ++ toText current))

/-- Requests executed in their order. -/
def executeAll (kv : Kv V) (requests : List (KvRequest V)) : Kv V :=
  requests.foldl (fun kv request => (kv.execute toText request).1) kv

theorem executeAll_append (kv : Kv V) (requests rest : List (KvRequest V)) :
    kv.executeAll toText (requests ++ rest) =
      (kv.executeAll toText requests).executeAll toText rest := List.foldl_append

end Executing

/-! ### One slot -/

section Slots

variable (toText : V → String)

/-- What a request does to the cell at a slot. -/
def opAt (slot : String) (request : KvRequest V) : Cell.Op V :=
  if toText request.key = slot then request.op else .read

/-- What requests do to the cell at a slot. -/
def opsAt (slot : String) (requests : List (KvRequest V)) : List (Cell.Op V) :=
  requests.map (opAt toText slot)

variable [BEq V]

theorem get?_execute (kv : Kv V) (request : KvRequest V) (slot : String) :
    (kv.execute toText request).1.entries.get? slot =
      (opAt toText slot request).on (kv.entries.get? slot) := by
  by_cases hslot : toText request.key = slot
  · subst hslot
    rw [opAt, if_pos rfl]
    cases request with
    | read clientId requestNum key =>
      simp only [execute, KvRequest.op, Cell.Op.on, KvRequest.key]
      split <;> rfl
    | write clientId requestNum key value =>
      simp only [execute, KvRequest.op, Cell.Op.on, KvRequest.key, OrdMap.get?_insert, if_true]
    | cas clientId requestNum key old new =>
      simp only [execute, KvRequest.op, KvRequest.key]
      cases hcurrent : kv.entries.get? (toText key) with
      | none => exact hcurrent
      | some current =>
        simp only [Cell.Op.on]
        split
        · rw [OrdMap.get?_insert, if_pos rfl]
        · exact hcurrent
  · rw [opAt, if_neg hslot]
    have hother : slot ≠ toText request.key := Ne.symm hslot
    cases request with
    | read clientId requestNum key =>
      simp only [execute, Cell.Op.on]
      split <;> rfl
    | write clientId requestNum key value =>
      exact (OrdMap.get?_insert _ _ _ _).trans (if_neg hother)
    | cas clientId requestNum key old new =>
      simp only [execute, Cell.Op.on]
      split
      · rfl
      · split
        · exact (OrdMap.get?_insert _ _ _ _).trans (if_neg hother)
        · rfl

/-- **At each slot** the service runs the operations of its requests. -/
theorem get?_executeAll (kv : Kv V) (requests : List (KvRequest V)) (slot : String) :
    (kv.executeAll toText requests).entries.get? slot =
      Cell.run (opsAt toText slot requests) (kv.entries.get? slot) := by
  induction requests generalizing kv with
  | nil => rfl
  | cons request requests ih =>
    rw [opsAt, List.map_cons, Cell.run_cons, ← get?_execute]
    exact ih _

end Slots

/-! ### Redelivery -/

section Redelivery

variable [BEq V] (toText : V → String)

/-- No slot keeps a second delivery of the tail apart from the first: where the head leaves a
value and the tail does not write, the end of the value's way along the tail's compare-and-sets
is the end of its own way along them. -/
def Converges (head tail : List (KvRequest V)) : Prop :=
  ∀ slot value last, Cell.Leaves (opsAt toText slot head) value →
    ¬ Cell.Writes (opsAt toText slot tail) →
    Cell.Follows (Cell.links (opsAt toText slot tail)) value last →
    Cell.Follows (Cell.links (opsAt toText slot tail)) last last

/-- A history from its start behind its own head is the history alone. -/
theorem executeAll_from_start (head tail : List (KvRequest V)) :
    ((new.executeAll toText head).executeAll toText (head ++ tail)).entries =
      (new.executeAll toText (head ++ tail)).entries := by
  refine OrdMap.ext_get? fun slot => ?_
  rw [executeAll_append, executeAll_append]
  simp only [get?_executeAll]
  exact congrArg _ (Cell.run_run_none _)

/-- A tail delivered again behind a head leaves the entries exactly where every slot returns. -/
theorem executeAll_again_iff (head tail : List (KvRequest V)) :
    (((new.executeAll toText head).executeAll toText tail).executeAll toText tail).entries =
        ((new.executeAll toText head).executeAll toText tail).entries ↔
      Converges toText head tail := by
  have hslot : ∀ slot, (new.executeAll toText head).entries.get? slot =
      Cell.run (opsAt toText slot head) none := get?_executeAll toText new head
  constructor
  · intro heq slot value last hleaves
    have htwice := congrArg (OrdMap.get? · slot) heq
    simp only [get?_executeAll toText _ tail, hslot] at htwice
    exact fun hnot => Cell.run_run_iff.mp htwice hnot value last
      (Cell.run_none_eq_some_iff.mpr hleaves)
  · intro hback
    refine OrdMap.ext_get? fun slot => ?_
    simp only [get?_executeAll toText _ tail, hslot]
    exact Cell.run_run_iff.mpr fun hnot value last hvalue =>
      hback slot value last (Cell.run_none_eq_some_iff.mp hvalue) hnot

/-- **Redelivery converges** exactly where, at every slot that the head fills and the tail does
not write, the tail's compare-and-sets bring the value they leave back to itself. Executing the
whole history again from its start always does. -/
theorem redelivery_converges_iff (head tail : List (KvRequest V)) :
    ((((new.executeAll toText head).executeAll toText tail).executeAll toText tail).entries =
          ((new.executeAll toText head).executeAll toText tail).entries ∧
        ((new.executeAll toText head).executeAll toText (head ++ tail)).entries =
          (new.executeAll toText (head ++ tail)).entries) ↔
      Converges toText head tail :=
  ⟨fun h => (executeAll_again_iff toText head tail).mp h.1,
    fun h => ⟨(executeAll_again_iff toText head tail).mpr h,
      executeAll_from_start toText head tail⟩⟩

/-- A tail none of whose compare-and-sets expects a value that they leave converges behind every
head. -/
theorem converges_of_unexpected {head tail : List (KvRequest V)}
    (h : ∀ slot value last, Cell.Leaves (opsAt toText slot head) value →
      Cell.Follows (Cell.links (opsAt toText slot tail)) value last →
      ∀ link ∈ Cell.links (opsAt toText slot tail), (last == link.1) = false) :
    Converges toText head tail :=
  fun slot value last hleaves _ hfollows =>
    Cell.follows_of_unexpected (h slot value last hleaves hfollows)

end Redelivery

/-- A value set to 2, which the compare-and-set before it expects: the second delivery takes it on
to 3. -/
theorem redelivered_twice_apart :
    (((new.executeAll Nat.repr [.write 1 1 7 1]).executeAll Nat.repr
          [.cas 1 2 7 2 3, .cas 1 3 7 1 2]).executeAll Nat.repr
        [.cas 1 2 7 2 3, .cas 1 3 7 1 2]).entries ≠
      ((new.executeAll Nat.repr [.write 1 1 7 1]).executeAll Nat.repr
        [.cas 1 2 7 2 3, .cas 1 3 7 1 2]).entries := by
  decide

end Kv

end Maelstrom

end UvrrCore
