import OrderBookServer.HashMap
import OrderBookServer.LinkedList

/-!
# The list of a price level in its slab

The list as the source keeps it: nodes in the slots of a slab, linked both ways by their
indexes, and a hash index from keys to slots. An access to a slot that is vacant would
panic, so every operation that reads the slab is an `Option`. Which vacant slot an
insertion takes is the slab's own business, and an argument here.
-/
namespace OrderBookServer

/-- The occupied slots of a slab. -/
abbrev Slab (V : Type) := HashMap ℕ V

namespace Slab

variable {V : Type}

/-- A write through `slab[i]`. -/
def modify (slab : Slab V) (i : ℕ) (f : V → V) : Option (Slab V) :=
  (slab.lookup i).map fun v => slab.insert i (f v)

def remove (slab : Slab V) (i : ℕ) : Option (V × Slab V) :=
  (slab.lookup i).map fun v => (v, slab.erase i)

theorem modify_eq {slab : Slab V} {i : ℕ} {v : V} (h : slab.lookup i = some v) (f : V → V) :
    slab.modify i f = some (slab.insert i (f v)) := by rw [modify, h, Option.map_some]

theorem remove_eq {slab : Slab V} {i : ℕ} {v : V} (h : slab.lookup i = some v) :
    slab.remove i = some (v, slab.erase i) := by rw [remove, h, Option.map_some]

end Slab

structure Node (K T : Type) where
  key : K
  value : T
  next : Option ℕ
  prev : Option ℕ

structure SlabList (K T : Type) where
  keyToSid : HashMap K ℕ
  slab : Slab (Node K T)
  head : Option ℕ
  tail : Option ℕ

namespace SlabList

variable {K T : Type}

def new : SlabList K T := ⟨∅, ∅, none, none⟩

def isEmpty (self : SlabList K T) : Bool := self.head.isNone

/-- A loop over the nodes, from a slot on and along one of the two links. -/
def walk {A : Type} (slab : Slab (Node K T)) (link : Node K T → Option ℕ)
    (body : A → Node K T → A) : ℕ → A → Option ℕ → Option A
  | _, acc, none => some acc
  | 0, _, some _ => none
  | turns + 1, acc, some c => do
    let node ← slab.lookup c
    walk slab link body turns (body acc node) (link node)

/-- The slots that such a loop meets. -/
def visits (slab : Slab (Node K T)) (link : Node K T → Option ℕ) : ℕ → Option ℕ → Option (List ℕ)
  | _, none => some []
  | 0, some _ => none
  | turns + 1, some c => do
    let node ← slab.lookup c
    let rest ← visits slab link turns (link node)
    return c :: rest

def fold {A : Type} (self : SlabList K T) (turns : ℕ) (init : A) (f : A → T → A) : Option A :=
  walk self.slab Node.next (fun acc node => f acc node.value) turns init self.head

def toVec (self : SlabList K T) (turns : ℕ) : Option (List T) :=
  walk self.slab Node.next (fun res node => res ++ [node.value]) turns [] self.head

/-- The same along the links back, as the tests read it. -/
def toRevVec (self : SlabList K T) (turns : ℕ) : Option (List T) :=
  walk self.slab Node.prev (fun res node => res ++ [node.value]) turns [] self.tail

/-- The value that the reference to the head is to, if there is a head. -/
def headValue (self : SlabList K T) : Option (Option T) :=
  match self.head with
  | none => some none
  | some h => do
    let node ← self.slab.lookup h
    return some node.value

variable [DecidableEq K]

/-- The value that the reference to the node of a key is to, if the key has one. -/
def nodeValue (self : SlabList K T) (key : K) : Option (Option T) :=
  match self.keyToSid.lookup key with
  | none => some none
  | some sid => do
    let node ← self.slab.lookup sid
    return some node.value

def pushBack (self : SlabList K T) (sid : ℕ) (key : K) (value : T) :
    Option (Bool × SlabList K T) :=
  if key ∈ self.keyToSid then some (false, self)
  else
    let slab := self.slab.insert sid ⟨key, value, none, none⟩
    let keyToSid := self.keyToSid.insert key sid
    match self.tail with
    | none => some (true, ⟨keyToSid, slab, some sid, some sid⟩)
    | some t => do
      let slab ← Slab.modify slab t fun tailOrder => { tailOrder with next := some sid }
      let slab ← Slab.modify slab sid fun newOrder => { newOrder with prev := some t }
      return (true, ⟨keyToSid, slab, self.head, some sid⟩)

def insertBefore (self : SlabList K T) (sid : ℕ) (before key : K) (value : T) :
    Option (Bool × SlabList K T) :=
  if key ∈ self.keyToSid then some (false, self)
  else
    match self.keyToSid.lookup before with
    | none => some (false, self)
    | some beforeSid => do
      let prev := (← self.slab.lookup beforeSid).prev
      let slab := self.slab.insert sid ⟨key, value, some beforeSid, prev⟩
      let keyToSid := self.keyToSid.insert key sid
      let slab ← Slab.modify slab beforeSid fun node => { node with prev := some sid }
      match prev with
      | some p =>
        let slab ← Slab.modify slab p fun node => { node with next := some sid }
        return (true, ⟨keyToSid, slab, self.head, self.tail⟩)
      | none => return (true, ⟨keyToSid, slab, some sid, self.tail⟩)

/-- Write the value at the head through the reference to it; whether there is one. -/
def updateHead (self : SlabList K T) (f : T → T) : Option (Bool × SlabList K T) :=
  match self.head with
  | none => some (false, self)
  | some h => do
    let slab ← Slab.modify self.slab h fun node => { node with value := f node.value }
    return (true, { self with slab := slab })

def removeFront (self : SlabList K T) : Option (Bool × SlabList K T) :=
  match self.head with
  | none => some (false, self)
  | some h => do
    let (headOrder, slab) ← Slab.remove self.slab h
    let keyToSid := self.keyToSid.erase headOrder.key
    match headOrder.next with
    | none => return (true, ⟨keyToSid, slab, none, none⟩)
    | some n =>
      let slab ← Slab.modify slab n fun newOrder => { newOrder with prev := none }
      return (true, ⟨keyToSid, slab, some n, self.tail⟩)

def removeNode (self : SlabList K T) (key : K) : Option (Bool × SlabList K T) :=
  match self.keyToSid.lookup key with
  | none => some (false, self)
  | some sid => do
    let keyToSid := self.keyToSid.erase key
    let (order, slab) ← Slab.remove self.slab sid
    let (slab, head) ← match order.prev with
      | some p => do
        let slab ← Slab.modify slab p fun prevOrder => { prevOrder with next := order.next }
        pure (slab, self.head)
      | none => pure (slab, order.next)
    let (slab, tail) ← match order.next with
      | some n => do
        let slab ← Slab.modify slab n fun nextOrder => { nextOrder with prev := order.prev }
        pure (slab, self.tail)
      | none => pure (slab, order.prev)
    return (true, ⟨keyToSid, slab, head, tail⟩)

/-- Write the value under a key through the reference to it; whether there is one. -/
def updateNode (self : SlabList K T) (key : K) (f : T → T) : Option (Bool × SlabList K T) :=
  match self.keyToSid.lookup key with
  | none => some (false, self)
  | some sid => do
    let slab ← Slab.modify self.slab sid fun node => { node with value := f node.value }
    return (true, { self with slab := slab })

end SlabList

/-- The calls that change a list. -/
inductive ListOp (K T : Type) where
  | pushBack (key : K) (value : T)
  | insertBefore (before key : K) (value : T)
  | updateHead (f : T → T)
  | removeFront
  | removeNode (key : K)
  | updateNode (key : K) (f : T → T)

namespace SlabList

variable {K T : Type} [DecidableEq K]

/-- A call, and the slot that the slab has for it. -/
def run (self : SlabList K T) (sid : ℕ) : ListOp K T → Option (Bool × SlabList K T)
  | .pushBack key value => self.pushBack sid key value
  | .insertBefore before key value => self.insertBefore sid before key value
  | .updateHead f => self.updateHead f
  | .removeFront => self.removeFront
  | .removeNode key => self.removeNode key
  | .updateNode key f => self.updateNode key f

/-- A list that calls have made of an empty one, whatever vacant slots the slab gave. -/
inductive Built : SlabList K T → Prop
  | new : Built new
  | run {self next : SlabList K T} {sid : ℕ} {success : Bool} (before : Built self)
      (op : ListOp K T) (vacant : sid ∉ self.slab) (h : self.run sid op = some (success, next)) :
      Built next

/-- Calls on an empty list, each with a vacant slot: what they returned, and the list after. -/
inductive Calls : List (ListOp K T) → List Bool → SlabList K T → Prop
  | new : Calls [] [] new
  | call {ops : List (ListOp K T)} {results : List Bool} {self next : SlabList K T}
      {success : Bool} (before : Calls ops results self) (sid : ℕ) (op : ListOp K T)
      (vacant : sid ∉ self.slab) (h : self.run sid op = some (success, next)) :
      Calls (ops ++ [op]) (results ++ [success]) next

end SlabList

namespace LinkedList

variable {K T : Type} [DecidableEq K]

def headValue (l : LinkedList K T) : Option T := l.entries.head?.map Prod.snd

def nodeValue (l : LinkedList K T) (key : K) : Option T :=
  (l.entries.find? fun e => e.1 = key).map Prod.snd

def updateHead (l : LinkedList K T) (f : T → T) : Bool × LinkedList K T :=
  match h : l.entries with
  | [] => (false, l)
  | (k, v) :: rest => (true, ⟨(k, f v) :: rest, by
      have hl := l.nodup
      rw [h] at hl
      exact hl⟩)

def removeFront (l : LinkedList K T) : Bool × LinkedList K T :=
  match h : l.entries with
  | [] => (false, l)
  | _ :: rest => (true, ⟨rest, by
      have hl := l.nodup
      rw [h, List.map_cons] at hl
      exact hl.of_cons⟩)

/-- What a call does to the sequence. -/
def run (self : LinkedList K T) : ListOp K T → Bool × LinkedList K T
  | .pushBack key value => self.pushBack key value
  | .insertBefore before key value => self.insertBefore before key value
  | .updateHead f => self.updateHead f
  | .removeFront => self.removeFront
  | .removeNode key => self.removeNode key
  | .updateNode key f => self.updateNode key f

/-- What calls return, and the sequence after them. -/
def runAll (self : LinkedList K T) : List (ListOp K T) → List Bool × LinkedList K T
  | [] => ([], self)
  | op :: ops =>
    let rest := (self.run op).2.runAll ops
    ((self.run op).1 :: rest.1, rest.2)

end LinkedList
end OrderBookServer
