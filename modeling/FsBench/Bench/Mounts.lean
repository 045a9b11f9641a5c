import FsBench.Bench.Leftover
import FsBench.Medium.Mount

/-!
Calls of main one after the other on a host with many media: which medium a call changes, and what is
left on the mount point.
-/

namespace FsBench

structure Host where
  point : MountPoint
  media : CStr → Dir

structure MountAnswers where
  umountFirst : Bool
  mkdir : Bool
  mount : Timed Bool
  umountLast : Bool

structure MainCall where
  devname : CStr
  options : Options
  answers : Answers
  mounts : MountAnswers
  system : CStr → MountPoint → MountPoint × Int

namespace MainCall

/--
No file can be written: main returns without the call of `sys_medium_umount` at its end.
-/
def LeavesEarly (c : MainCall) : Prop :=
  ∃ uRemainSize, c.answers.info = some uRemainSize ∧ c.options.jobsNum ≠ 0
    ∧ prejobfilenum uRemainSize c.options.jobsNum c.options.filesize = 0

instance {c : MainCall} : Decidable c.LeavesEarly :=
  match h : c.answers.info with
  | none => isFalse (by simp [LeavesEarly, h])
  | some uRemainSize =>
    decidable_of_iff (c.options.jobsNum ≠ 0
        ∧ prejobfilenum uRemainSize c.options.jobsNum c.options.filesize = 0)
      (by simp [LeavesEarly, h])

def mounted (c : MainCall) (point : MountPoint) : MountPoint × Int :=
  let point := (sysMediumUmount c.mounts.umountFirst point).1
  let point := (sysPosixMkdir c.mounts.mkdir point).1
  let (point, _, ret) := sysMediumMount c.mounts.mount c.system (some c.devname) .vfat point
    ⟨0, 0, 0, 0⟩
  (point, ret)

/--
The media behind the mount point are those of the last mount.
-/
def step (conduct : Conduct) (h : Host) (c : MainCall) (next : Host) : Prop :=
  let (point, ret) := c.mounted h.point
  if ret ≠ 0 then
    next = { h with point }
  else
    ∃ medium rest content, point = some (medium :: rest)
      ∧ MainRun conduct c.options c.answers (h.media medium) content
      ∧ next = {
        point := if c.LeavesEarly then point else (sysMediumUmount c.mounts.umountLast point).1
        media := Function.update h.media medium content }

end MainCall

def hosts (conduct : Conduct) : System Host MainCall where
  init h := h.point.getD [] = []
  step := MainCall.step conduct

namespace MainCall

variable {conduct : Conduct} {h next : Host} {c : MainCall} {point : MountPoint}

theorem sysMediumMount_vfat {mount : Timed Bool} {system : CStr → MountPoint → MountPoint × Int}
    {dev : CStr} {fsinfo : FsinfoReport}
    : sysMediumMount mount system (some dev) .vfat point fsinfo
      = match point with
        | none => (none, { fsinfo with mountTime := mount.duration }, -1)
        | some media =>
          if mount.result then
            (some (dev :: media), { fsinfo with mountTime := mount.duration }, 0)
          else
            (some media, { fsinfo with mountTime := mount.duration }, -1) := by
  cases point with
  | none => rfl
  | some media =>
    cases hresult : mount.result <;> simp [sysMediumMount, sysMediumFsTypeConvertString,
      sysMediumFsTypeConvertString.name, sysMediumFsTypeConvertData,
      sysMediumFsTypeConvertData.options, MountPoint.mount, hresult]

theorem mounted_eq (c : MainCall) (point : MountPoint)
    : ∃ made : MountPoint,
        made.getD [] = ((sysMediumUmount c.mounts.umountFirst point).1).getD []
          ∧ (c.mounts.mkdir = true → made.isSome)
          ∧ c.mounted point = match made with
            | none => (none, -1)
            | some media =>
              if c.mounts.mount.result then (some (c.devname :: media), 0) else (some media, -1) := by
  refine ⟨(sysPosixMkdir c.mounts.mkdir (sysMediumUmount c.mounts.umountFirst point).1).1, ?_, ?_, ?_⟩
  . generalize (sysMediumUmount c.mounts.umountFirst point).1 = umounted
    cases umounted with
    | some media => rfl
    | none => cases hmkdir : c.mounts.mkdir <;> rfl
  . intro hmkdir
    generalize (sysMediumUmount c.mounts.umountFirst point).1 = umounted
    cases umounted with
    | some media => rfl
    | none =>
      rw [hmkdir]
      rfl
  . unfold mounted
    dsimp only
    rw [sysMediumMount_vfat]
    generalize (sysPosixMkdir c.mounts.mkdir (sysMediumUmount c.mounts.umountFirst point).1).1 = made
    cases made with
    | none => rfl
    | some media => cases hmount : c.mounts.mount.result <;> simp

theorem step_mounted (h₁ : step conduct h c next) (hmkdir : c.mounts.mkdir = true)
    (hmount : c.mounts.mount.result = true)
    : MainRun conduct c.options c.answers (h.media c.devname) (next.media c.devname)
        ∧ ∀ dev, dev ≠ c.devname → next.media dev = h.media dev := by
  obtain ⟨made, _, hthere, hmounted⟩ := c.mounted_eq h.point
  obtain ⟨media, rfl⟩ := Option.isSome_iff_exists.mp (hthere hmkdir)
  unfold step at h₁
  rw [hmounted] at h₁
  simp only [hmount, if_true] at h₁
  rw [if_neg (by decide)] at h₁
  obtain ⟨medium, rest, content, htop, hrun, rfl⟩ := h₁
  cases htop
  dsimp only
  refine ⟨?_, fun dev hdev => Function.update_of_ne hdev _ _⟩
  rw [Function.update_self]
  exact hrun

theorem step_not_mounted (h₁ : step conduct h c next) (hmount : c.mounts.mount.result = false)
    : next.media = h.media := by
  obtain ⟨made, _, _, hmounted⟩ := c.mounted_eq h.point
  unfold step at h₁
  rw [hmounted] at h₁
  cases made with
  | none =>
    dsimp only at h₁
    rw [if_pos (by decide)] at h₁
    rw [h₁]
  | some media =>
    simp only [hmount, Bool.false_eq_true, if_false] at h₁
    rw [if_pos (by decide)] at h₁
    rw [h₁]

def runOn (dev : CStr) (c : MainCall) : Option (Options × Answers) :=
  if c.devname = dev ∧ c.mounts.mount.result = true then some (c.options, c.answers) else none

/--
The calls that take media off the mount point or make it succeed. A mount may fail.
-/
structure Granted (c : MainCall) : Prop where
  umountFirst : c.mounts.umountFirst = true
  mkdir : c.mounts.mkdir = true
  umountLast : c.mounts.umountLast = true

def leaves (c : MainCall) : List CStr :=
  if c.mounts.mount.result = true ∧ c.LeavesEarly then [c.devname] else []

theorem umount_getD (hone : (point.getD []).length ≤ 1)
    : ((sysMediumUmount true point).1).getD [] = [] := by
  rcases point with _ | media
  . rfl
  . rcases media with _ | ⟨medium, rest⟩
    . rfl
    . rw [Option.getD_some, List.length_cons] at hone
      have hrest : rest = [] := List.eq_nil_of_length_eq_zero (by omega)
      rw [hrest]
      rfl

theorem step_point (h₁ : step conduct h c next) (hgranted : c.Granted) (hone : (h.point.getD []).length ≤ 1)
    : next.point.getD [] = c.leaves := by
  obtain ⟨made, hmade, hthere, hmounted⟩ := c.mounted_eq h.point
  rw [hgranted.umountFirst, umount_getD hone] at hmade
  obtain ⟨media, rfl⟩ := Option.isSome_iff_exists.mp (hthere hgranted.mkdir)
  rw [Option.getD_some] at hmade
  subst hmade
  unfold step at h₁
  rw [hmounted] at h₁
  unfold leaves
  cases hmount : c.mounts.mount.result with
  | false =>
    simp only [hmount, Bool.false_eq_true, if_false] at h₁
    rw [if_pos (by decide)] at h₁
    rw [h₁, if_neg (by simp)]
    rfl
  | true =>
    simp only [hmount, if_true] at h₁
    rw [if_neg (by decide)] at h₁
    obtain ⟨medium, rest, content, htop, _, rfl⟩ := h₁
    rw [hgranted.umountLast]
    by_cases hearly : c.LeavesEarly
    . simp only [hearly, if_true, and_self, Option.getD_some]
    . simp only [hearly, if_false, and_false]
      exact umount_getD (Nat.le_refl 1)

end MainCall

namespace Stick

/-!
A call for a medium with a photo on it, and one for a medium without room for a single file.
-/

def photoCall : MainCall where
  devname := "/dev/sda1".toList
  options := Photo.options
  answers := Photo.answers
  mounts := ⟨true, true, ⟨0, 2, true⟩, true⟩
  system _ point := (point, 0)

def fullCall : MainCall :=
  { photoCall with
    devname := "/dev/sdb1".toList
    answers := { Photo.answers with info := some 0 } }

def before : Host where
  point := none
  media dev := if dev = photoCall.devname then Photo.before else fun _ => none

def between : Host where
  point := some []
  media := Function.update before.media photoCall.devname Photo.after

def after : Host where
  point := some [fullCall.devname]
  media := Function.update between.media fullCall.devname (between.media fullCall.devname)

theorem photo_step : MainCall.step .succeeds before photoCall between :=
  ⟨photoCall.devname, [], Photo.after, rfl, Photo.run, rfl⟩

theorem full_step : MainCall.step .succeeds between fullCall after :=
  ⟨fullCall.devname, [], between.media fullCall.devname, rfl, rfl, rfl⟩

theorem run : (hosts .succeeds).Run before [photoCall, fullCall] after := by
  have hphoto : (hosts .succeeds).Run before [photoCall] between := .single photo_step
  exact hphoto.snoc full_step

end Stick

end FsBench
