import FsBench.Common.Text
import Mathlib.Logic.Function.Basic

/-!
`sys_pthread_create` of thread/sys_pthread.c and the wrapper in which the new thread starts. Both
handle a pair of attributes and a `SYS_FUNC_WARP` on the heap; a call that would destroy or free what
is not there, or initialise the attributes over others, is `none`.
-/

namespace FsBench

def ENOMEM : Int := 12

def STACK_ALIGN_BYTES : Nat := 64

def taskStackAlign (p : Nat) : Nat :=
  Word.add 64 p (STACK_ALIGN_BYTES - 1) / STACK_ALIGN_BYTES * STACK_ALIGN_BYTES

structure SysFuncWarp (φ α : Type) where
  entry : φ
  strName : CStr
  arg : Fin 10 → Option α

structure ThreadAnswers where
  attrInit : Int
  attrSetdetachstate : Int
  attrSetstacksize : Nat → Int
  malloc : Bool
  create : Int

/--
The heap of the process and the attributes on the stack of the call. `allocated` is the number of
pointers that `malloc` has given out.
-/
structure Process (φ α : Type) where
  heap : Nat → Option (SysFuncWarp φ α)
  allocated : Nat
  attr : Bool

namespace Process

variable {φ α : Type}

def initial : Process φ α where
  heap _ := none
  allocated := 0
  attr := false

def attrInit (ret : Int) (p : Process φ α) : Option (Process φ α) :=
  if p.attr then none else some { p with attr := ret = 0 }

def attrDestroy (p : Process φ α) : Option (Process φ α) :=
  if p.attr then some { p with attr := false } else none

def alloc (w : SysFuncWarp φ α) (p : Process φ α) : Process φ α × Nat :=
  ({ p with
      heap := Function.update p.heap (p.allocated + 1) (some w)
      allocated := p.allocated + 1 },
    p.allocated + 1)

def free (ptr : Nat) (p : Process φ α) : Option (Process φ α) :=
  match p.heap ptr with
  | none => none
  | some _ => some { p with heap := Function.update p.heap ptr none }

end Process

section Create

variable {φ α : Type} (pthreadStackMin : Nat) (a : ThreadAnswers)

def sysPthreadSetAttr (stacksize : Nat) (p : Process φ α) : Option (Process φ α × Int) := do
  let p ← p.attrInit a.attrInit
  if a.attrInit ≠ 0 then
    return (p, a.attrInit)
  else if a.attrSetdetachstate ≠ 0 then
    let p ← p.attrDestroy
    return (p, a.attrSetdetachstate)
  else
    let stacksize := if stacksize < pthreadStackMin then pthreadStackMin else stacksize
    let iRetVal := a.attrSetstacksize stacksize
    if iRetVal ≠ 0 then
      let p ← p.attrDestroy
      return (p, iRetVal)
    else
      return (p, 0)

/--
What is returned, and the pointer with which a new thread has been started.
-/
def sysPthreadCreate (strTaskName : CStr) (uStackSize : Nat) (pFunc : Option φ) (args : List α)
    (p : Process φ α) : Option (Process φ α × Int × Option Nat) :=
  match pFunc with
  | none => some (p, -1, none)
  | some entry =>
    if args.length > 10 then
      some (p, -1, none)
    else do
      let (p, iRetVal) ← sysPthreadSetAttr pthreadStackMin a (taskStackAlign uStackSize) p
      if iRetVal ≠ 0 then
        return (p, iRetVal, none)
      else if a.malloc = false then
        let p ← p.attrDestroy
        return (p, ENOMEM, none)
      else
        let (p, pstFunc) := p.alloc
          { entry, strName := strncpy 31 strTaskName, arg := fun i => args[i.val]? }
        if a.create ≠ 0 then
          let p ← p.free pstFunc
          let p ← p.attrDestroy
          return (p, -1, none)
        else
          let p ← p.attrDestroy
          return (p, 0, some pstFunc)

def sysThreadWrapper (arg : Nat) (p : Process φ α) : Option (Process φ α × SysFuncWarp φ α) := do
  let stfunc ← p.heap arg
  let p ← p.free arg
  return (p, stfunc)

end Create

def ThreadAnswers.Succeeds (a : ThreadAnswers) (pthreadStackMin uStackSize : Nat) : Prop :=
  a.attrInit = 0 ∧ a.attrSetdetachstate = 0
    ∧ a.attrSetstacksize (max (taskStackAlign uStackSize) pthreadStackMin) = 0
    ∧ a.malloc = true ∧ a.create = 0

instance {a : ThreadAnswers} {pthreadStackMin uStackSize : Nat}
    : Decidable (a.Succeeds pthreadStackMin uStackSize) :=
  inferInstanceAs (Decidable (_ ∧ _))

/--
Between two calls there are no attributes, and every pointer has come from `malloc`.
-/
structure Process.Settled {φ α : Type} (p : Process φ α) : Prop where
  attr_eq : p.attr = false
  heap_eq : ∀ ptr, p.allocated < ptr → p.heap ptr = none

namespace Process.Settled

variable {φ α : Type} {pthreadStackMin : Nat} {a : ThreadAnswers} {p : Process φ α}
  {strTaskName : CStr} {uStackSize : Nat} {entry : φ} {args : List α}

theorem initial : (Process.initial : Process φ α).Settled :=
  ⟨rfl, fun _ _ => rfl⟩

variable (pthreadStackMin a) in
theorem sysPthreadSetAttr (h : p.Settled) (stacksize : Nat)
    : ∃ ret, FsBench.sysPthreadSetAttr pthreadStackMin a stacksize p
          = some ({ p with attr := ret = 0 }, ret)
        ∧ (ret = 0 ↔ a.attrInit = 0 ∧ a.attrSetdetachstate = 0
            ∧ a.attrSetstacksize (max stacksize pthreadStackMin) = 0) := by
  have hmax : (if stacksize < pthreadStackMin then pthreadStackMin else stacksize)
      = max stacksize pthreadStackMin := by
    rw [Nat.max_def]
    split <;> split <;> omega
  unfold FsBench.sysPthreadSetAttr Process.attrInit
  rw [h.attr_eq, hmax]
  simp only [Bool.false_eq_true, if_false, Option.bind_eq_bind, Option.bind_some]
  by_cases hinit : a.attrInit = 0
  . rw [if_neg (not_not.mpr hinit)]
    by_cases hdetach : a.attrSetdetachstate = 0
    . rw [if_neg (not_not.mpr hdetach)]
      by_cases hsize : a.attrSetstacksize (max stacksize pthreadStackMin) = 0
      . rw [if_neg (not_not.mpr hsize)]
        exact ⟨0, by simp [hinit], by simp [hinit, hdetach, hsize]⟩
      . rw [if_pos hsize]
        refine ⟨a.attrSetstacksize (max stacksize pthreadStackMin), ?_, by simp [hsize]⟩
        simp [Process.attrDestroy, hinit, hsize]
    . rw [if_pos hdetach]
      refine ⟨a.attrSetdetachstate, ?_, by simp [hdetach]⟩
      simp [Process.attrDestroy, hinit, hdetach]
  . rw [if_pos hinit]
    exact ⟨_, rfl, by simp [hinit]⟩

variable (pthreadStackMin a strTaskName uStackSize entry) in
theorem sysPthreadCreate (h : p.Settled) (hargs : args.length ≤ 10)
    : ∃ next ret started,
        FsBench.sysPthreadCreate pthreadStackMin a strTaskName uStackSize (some entry) args p
            = some (next, ret, started)
          ∧ next.Settled
          ∧ (a.Succeeds pthreadStackMin uStackSize ∧ ret = 0 ∧ started = some (p.allocated + 1)
              ∧ next.heap = Function.update p.heap (p.allocated + 1)
                (some { entry, strName := strncpy 31 strTaskName, arg := fun i => args[i.val]? })
            ∨ ¬a.Succeeds pthreadStackMin uStackSize ∧ ret ≠ 0 ∧ started = none
              ∧ next.heap = p.heap) := by
  obtain ⟨ret, hset, hret⟩ := h.sysPthreadSetAttr pthreadStackMin a (taskStackAlign uStackSize)
  have hfresh : p.heap (p.allocated + 1) = none := h.heap_eq _ (Nat.lt_succ_self _)
  unfold FsBench.sysPthreadCreate ThreadAnswers.Succeeds
  simp only [if_neg (Nat.not_lt.mpr hargs), hset, Option.bind_eq_bind, Option.bind_some]
  by_cases hzero : ret = 0
  . obtain ⟨hinit, hdetach, hsize⟩ := hret.mp hzero
    simp only [hzero, ne_eq, not_true, if_false, decide_true, Process.attrDestroy, if_true,
      Option.bind_some, hinit, hdetach, hsize, true_and]
    cases hmalloc : a.malloc with
    | false =>
      refine ⟨_, _, _, rfl, ⟨rfl, h.heap_eq⟩, .inr ⟨by simp, by decide, rfl, rfl⟩⟩
    | true =>
      by_cases hcreate : a.create = 0
      . simp only [hcreate, Process.alloc, if_false, not_true, Bool.true_eq_false, Option.bind_some,
          if_true]
        refine ⟨_, _, _, rfl, ⟨rfl, ?_⟩, .inl ⟨by simp, rfl, rfl, rfl⟩⟩
        intro ptr hptr
        dsimp only at hptr ⊢
        rw [Function.update_of_ne (by omega)]
        exact h.heap_eq ptr (by omega)
      . simp only [hcreate, Process.alloc, Process.free, if_true, not_false_eq_true,
          Bool.true_eq_false, if_false, Option.bind_some, Function.update_self]
        have hheap : Function.update (Function.update p.heap (p.allocated + 1)
            (some { entry, strName := strncpy 31 strTaskName, arg := fun i => args[i.val]? }))
            (p.allocated + 1) none = p.heap := by
          rw [Function.update_idem, ← hfresh, Function.update_eq_self]
        refine ⟨_, _, _, rfl, ⟨rfl, ?_⟩, .inr ⟨by simp, by decide, rfl, hheap⟩⟩
        dsimp only
        rw [hheap]
        exact fun ptr hptr => h.heap_eq ptr (by omega)
  . rw [if_pos hzero]
    refine ⟨_, ret, none, rfl, ⟨by simp [hzero], h.heap_eq⟩, .inr ⟨?_, hzero, rfl, rfl⟩⟩
    rintro ⟨hinit, hdetach, hsize, _⟩
    exact hzero (hret.mpr ⟨hinit, hdetach, hsize⟩)

theorem sysThreadWrapper (h : p.Settled) {ptr : Nat} {stfunc : SysFuncWarp φ α}
    (hptr : p.heap ptr = some stfunc)
    : ∃ next, FsBench.sysThreadWrapper ptr p = some (next, stfunc) ∧ next.Settled
        ∧ next.heap = Function.update p.heap ptr none ∧ next.allocated = p.allocated := by
  unfold FsBench.sysThreadWrapper Process.free
  simp only [hptr, Option.bind_eq_bind, Option.bind_some]
  refine ⟨_, rfl, ⟨h.attr_eq, ?_⟩, rfl, rfl⟩
  intro other hother
  by_cases hsame : other = ptr
  . rw [hsame]
    exact Function.update_self _ _ _
  . exact (Function.update_of_ne hsame _ _).trans (h.heap_eq other hother)

end Process.Settled

end FsBench
