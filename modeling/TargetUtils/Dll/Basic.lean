import TargetUtils.Library.LinkedList
import Mathlib.Logic.Function.Basic
import Mathlib.Tactic.SplitIfs

set_option autoImplicit false

/-! # Doubly linked lists

Translation of the macros of `bf_list.h`. The memory holds the fields `n` and `p` of every element
and the list variables; a pointer is an `Option`, with `NULL` as `none`. An element argument is the
value of a pointer variable that is not `NULL`. Using a `NULL` pointer has no result. -/

/-- The `n` and `p` fields of the elements, and the list variables. -/
structure DllMem (ε ν : Type*) extends Links ε where
  var : ν → Option ε

namespace DllMem

variable {ε ν : Type*}

/-! ## Assignments -/

section

variable [DecidableEq ε]

/-- `(x)->n = v`. -/
def setNext (m : DllMem ε ν) (x : ε) (v : Option ε) : DllMem ε ν :=
  { m with next := Function.update m.next x v }

/-- `(x)->p = v`. -/
def setPrev (m : DllMem ε ν) (x : ε) (v : Option ε) : DllMem ε ν :=
  { m with prev := Function.update m.prev x v }

variable (m : DllMem ε ν) (x y : ε) (v : Option ε)

@[simp] theorem setNext_next :
    (m.setNext x v).next y = if y = x then v else m.next y := Function.update_apply _ _ _ _

@[simp] theorem setNext_prev : (m.setNext x v).prev = m.prev := rfl

@[simp] theorem setNext_var : (m.setNext x v).var = m.var := rfl

@[simp] theorem setPrev_next : (m.setPrev x v).next = m.next := rfl

@[simp] theorem setPrev_prev :
    (m.setPrev x v).prev y = if y = x then v else m.prev y := Function.update_apply _ _ _ _

@[simp] theorem setPrev_var : (m.setPrev x v).var = m.var := rfl

end

section

variable [DecidableEq ν]

/-- `l = v`. -/
def setVar (m : DllMem ε ν) (l : ν) (v : Option ε) : DllMem ε ν :=
  { m with var := Function.update m.var l v }

variable (m : DllMem ε ν) (l : ν) (v : Option ε)

@[simp] theorem setVar_next : (m.setVar l v).next = m.next := rfl

@[simp] theorem setVar_prev : (m.setVar l v).prev = m.prev := rfl

@[simp] theorem setVar_var : (m.setVar l v).var = Function.update m.var l v := rfl

end

/-! ## The macros -/

/-- `BF_LIST_DLL_LAST`: the value of `r`. -/
def last (m : DllMem ε ν) (l : ν) : Option ε :=
  match m.var l with
  | some h => m.prev h
  | none => none

variable [DecidableEq ε] [DecidableEq ν]

/-- `BF_LIST_DLL_PP`. -/
def pp (m : DllMem ε ν) (l : ν) (e : ε) : DllMem ε ν :=
  let m := m.setNext e (m.var l)
  let m :=
    match m.var l with
    | some h => (m.setPrev e (m.prev h)).setPrev h (some e)
    | none => m.setPrev e (some e)
  m.setVar l (some e)

/-- `BF_LIST_DLL_AP`. -/
def ap (m : DllMem ε ν) (l : ν) (e : ε) : Option (DllMem ε ν) :=
  let m := m.setNext e none
  match m.var l with
  | some h =>
    -- the first element's `p` is the last element
    let m := m.setPrev e (m.prev h)
    match m.prev h with
    | some t => some ((m.setNext t (some e)).setPrev h (some e))
    | none => none
  | none => some ((m.setPrev e (some e)).setVar l (some e))

/-- The part of `BF_LIST_DLL_REM` that takes the element out of the list. -/
def unlink (m : DllMem ε ν) (l : ν) (e : ε) : Option (DllMem ε ν) :=
  -- only in a list of one element does an element refer to itself
  if m.prev e = some e then some (m.setVar l none)
  else if m.var l = some e then
    match m.next e with
    | some x => some ((m.setPrev x (m.prev e)).setVar l (some x))
    | none => none
  else
    match m.prev e with
    | some q =>
      let m := m.setNext q (m.next e)
      match m.next e, m.var l with
      | some x, _ => some (m.setPrev x (m.prev e))
      -- the last element goes: the first refers to the one before it
      | none, some h => some (m.setPrev h (m.prev e))
      | none, none => none
    | none => none

/-- `BF_LIST_DLL_REM`. -/
def rem (m : DllMem ε ν) (l : ν) (e : ε) : Option (DllMem ε ν) :=
  (m.unlink l e).map fun m => (m.setPrev e none).setNext e none

/-- `BF_LIST_DLL_CAT`. -/
def cat (m : DllMem ε ν) (f s : ν) : Option (DllMem ε ν) :=
  match m.var s, m.var f with
  | some b, some a =>
    let tmp := m.prev a
    match m.prev a with
    | some t =>
      let m := m.setNext t (some b)
      let m := m.setPrev a (m.prev b)
      let m := m.setPrev b tmp
      some (m.setVar s none)
    | none => none
  | some b, none => some ((m.setVar f (some b)).setVar s none)
  | none, _ => some m

end DllMem
