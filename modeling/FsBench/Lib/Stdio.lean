import Mathlib.Logic.Function.Basic

/-!
Files and the streams of the C library that are opened for reading and writing. After output such a
stream is not read before it has been flushed, and after input it is not written unless the input has
come to the end of the file; what breaks that rule is `none`. What is written is in the file at once,
a buffer in between is seen by nobody who does not open the same file.
-/

namespace Stdio

abbrev Bytes := List UInt8

abbrev Files (P : Type) := P → Option Bytes

inductive Last where
  | flushed
  | output
  | input
  | endOfFile
deriving DecidableEq

structure Stream where
  position : Nat
  eof : Bool
  last : Last
deriving DecidableEq

def fopen {P : Type} [DecidableEq P] (files : Files P) (path : P) : Files P × Stream :=
  (Function.update files path (some []), { position := 0, eof := false, last := .flushed })

/--
`bytes` in the place of what is at `position`, and zeros in a gap in front of them.
-/
def overwrite (content : Bytes) (position : Nat) (bytes : Bytes) : Bytes :=
  content.take position ++ List.replicate (position - content.length) 0 ++ bytes
    ++ content.drop (position + bytes.length)

def fwrite {P : Type} [DecidableEq P] (files : Files P) (path : P) (s : Stream) (bytes : Bytes)
    : Option (Files P × Stream) := do
  let content ← files path
  if s.last = .input then
    none
  else
    return (Function.update files path (some (overwrite content s.position bytes)),
      { s with position := s.position + bytes.length, last := .output })

def fflush (s : Stream) : Option Stream :=
  if s.last = .input ∨ s.last = .endOfFile then none else some { s with last := .flushed }

/--
The bytes that `fread` gets of `size` that it wants, none when the end-of-file indicator is set.
-/
def fread {P : Type} (files : Files P) (path : P) (s : Stream) (size : Nat)
    : Option (Stream × Bytes) := do
  let content ← files path
  if s.last = .output then
    none
  else
    let bytes := if s.eof then [] else (content.drop s.position).take size
    let short := bytes.length < size
    return ({ position := s.position + bytes.length, eof := s.eof || short
              last := if short then .endOfFile else .input }, bytes)

variable {P Q : Type} {files : Files P} {path : P} {s : Stream} {content bytes : Bytes} {size : Nat}

theorem overwrite_end : overwrite content content.length bytes = content ++ bytes := by
  simp [overwrite]

theorem fread_end (hfile : files path = some content) (hlast : s.last ≠ .output)
    (hposition : s.position = content.length) (hsize : 0 < size)
    : fread files path s size
      = some ({ position := s.position, eof := true, last := .endOfFile }, []) := by
  simp [fread, hfile, hlast, hposition, hsize]

theorem fread_comp {f : Q → P} {q : Q} : fread files (f q) s size = fread (files ∘ f) q s size :=
  rfl

theorem fwrite_end [DecidableEq P] (hfile : files path = some content) (hlast : s.last ≠ .input)
    (hposition : s.position = content.length)
    : fwrite files path s bytes
      = some (Function.update files path (some (content ++ bytes)),
          { s with position := s.position + bytes.length, last := .output }) := by
  simp [fwrite, hfile, hlast, hposition, overwrite_end]

theorem fwrite_files [DecidableEq P] {files' : Files P} {s' : Stream}
    (h : fwrite files path s bytes = some (files', s'))
    : ∃ content, files' = Function.update files path (some content) := by
  obtain ⟨content, _, hwrite⟩ := Option.bind_eq_some_iff.mp h
  split at hwrite
  . cases hwrite
  . cases hwrite
    exact ⟨_, rfl⟩

section Comp

variable [DecidableEq P] [DecidableEq Q] {f : Q → P} {q : Q}

theorem fopen_comp (hf : Function.Injective f)
    : (fopen files (f q)).1 ∘ f = (fopen (files ∘ f) q).1 :=
  Function.update_comp_eq_of_injective _ hf _ _

theorem fwrite_comp (hf : Function.Injective f)
    : (fwrite files (f q) s bytes).map (fun r => (r.1 ∘ f, r.2)) = fwrite (files ∘ f) q s bytes := by
  unfold fwrite
  cases hfile : files (f q) with
  | none => simp [hfile]
  | some content =>
    by_cases hlast : s.last = .input <;>
      simp [hfile, hlast, Function.update_comp_eq_of_injective _ hf]

end Comp

end Stdio
