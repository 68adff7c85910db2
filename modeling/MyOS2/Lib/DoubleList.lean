import MyOS2.Misc.Ring

/-!
# Doubly linked lists with a counter (`lib/list/double_list.h`)

`List_s` is the pair of link fields of a node, `List_hdr_s` an anchor node with the number of
nodes on its list. The validity checks of the source spin as long as a list is broken: such a
call is `none`, like one that follows a pointer to no node.
-/

namespace MyOS2.DoubleList

/-- The link fields of all nodes, and the field `count` of the header every anchor belongs to. -/
structure Lists (ν : Type) extends Links ν where
  count : ν → Nat

variable {ν : Type} [DecidableEq ν]

section

variable (s : Lists ν)

/-- `INIT_LIST_HEADER_S` (`double_list.h:154-158`) and `INIT_LIST_S` (`double_list.h:148-152`). -/
def initList (n : ν) : Lists ν :=
  { s with toLinks := s.join n n }

/-- `__list_add_between` (`double_list.h:188-197`) and `__list_add_valid` (`double_list.h:161-168`).
-/
def listAddBetween (new : ν) (prev next : Ptr ν) : Option (Lists ν) :=
  match prev, next with
  | .node p, .node q =>
    if s.prev q = .node p ∧ s.next p = .node q ∧ new ≠ p ∧ new ≠ q then
      some { s with toLinks := (s.join p new).join new q }
    else none
  | _, _ => none

/-- `list_add_to_next` (`double_list.h:207-210`). -/
def listAddToNext (new head : ν) : Option (Lists ν) :=
  listAddBetween s new (.node head) (s.next head)

/-- `list_add_to_prev` (`double_list.h:220-223`). -/
def listAddToPrev (new head : ν) : Option (Lists ν) :=
  listAddBetween s new (s.prev head) (.node head)

/-- `__list_del` (`double_list.h:234-238`) and `__list_del_entry` (`double_list.h:254-260`). -/
def listDelEntry (entry : ν) : Option (Lists ν) :=
  match s.prev entry, s.next entry with
  | .node p, .node q =>
    if s.next p = .node entry ∧ s.prev q = .node entry then
      some { s with toLinks := s.join p q }
    else none
  | _, _ => none

/-- `list_is_empty_entry` (`double_list.h:429-432`). -/
def listIsEmptyEntry (n : ν) : Bool := decide (s.next n = .node n)

/-- `list_del_init` (`double_list.h:279-283`). -/
def listDelInit (entry : ν) : Option (Lists ν) := do
  let s ← listDelEntry s entry
  some (initList s entry)

end

/-- The loop of `list_header_contains`; a walk of more than `fuel` nodes is taken for one that does
not end. -/
def containsLoop (s : Lists ν) (anchor n : ν) : Nat → Ptr ν → Option Bool
  | fuel + 1, .node x =>
    if x = anchor then some false
    else if x = n then some true
    else containsLoop s anchor n fuel (s.next x)
  | _, _ => none

/-- `list_header_contains` (`double_list.h:634-642`). -/
def listHeaderContains (fuel : Nat) (s : Lists ν) (anchor n : ν) : Option Bool :=
  containsLoop s anchor n fuel (s.next anchor)

section

variable (s : Lists ν)

def setCount (anchor : ν) (count : Nat) : Lists ν :=
  { s with count := Function.update s.count anchor count }

/-- `list_header_add_to_head` (`double_list.h:645-649`). -/
def listHeaderAddToHead (anchor n : ν) : Option (Lists ν) := do
  let s ← listAddToNext s n anchor
  some (setCount s anchor (s.count anchor + 1))

/-- `list_header_add_to_tail` (`double_list.h:663-667`). -/
def listHeaderAddToTail (anchor n : ν) : Option (Lists ν) := do
  let s ← listAddToPrev s n anchor
  some (setCount s anchor (s.count anchor + 1))

/-- `list_header_is_empty` (`double_list.h:629-632`) and `list_header_remove_head`
(`double_list.h:651-660`). -/
def listHeaderRemoveHead (anchor : ν) : Option (Option ν × Lists ν) :=
  if 0 < s.count anchor then
    match s.next anchor with
    | .node n => do
      let s ← listDelInit s n
      some (some n, setCount s anchor (s.count anchor - 1))
    | _ => none
  else some (none, s)

/-- `list_header_remove_tail` (`double_list.h:669-679`). -/
def listHeaderRemoveTail (anchor : ν) : Option (Option ν × Lists ν) :=
  if 0 < s.count anchor then
    match s.prev anchor with
    | .node n => do
      let s ← listDelInit s n
      some (some n, setCount s anchor (s.count anchor - 1))
    | _ => none
  else some (none, s)

end

/-- `list_header_delete_node` (`double_list.h:682-691`): nothing happens when the node is not on the
list. -/
def listHeaderDeleteNode (fuel : Nat) (s : Lists ν) (anchor n : ν) : Option (Lists ν) := do
  let found ← listHeaderContains fuel s anchor n
  if found then
    let s ← listDelInit s n
    some (setCount s anchor (s.count anchor - 1))
  else some s

end MyOS2.DoubleList
