import FsBench.Bench.Workload
import FsBench.Lib.Stdio
import FsBench.Lib.Weave

/-!
What the jobs do to their files: the calls of `Testlibc_func` on its streams, made by all the jobs in
any order and with any answers. The arrays `handle` and `buff` are taken to fit on the stack of their
thread.
-/

namespace FsBench

open Stdio

inductive Handle where
  | unset
  | null
  | opened (stream : Stream)
  | closed

/--
The variables of `Testlibc_func` and its flag. `got` is what each `fread` got.
-/
structure Job (n : Nat) where
  handle : Fin n → Handle
  buff : Bytes
  got : List Nat
  flag : Nat

def Job.start (n : Nat) : Job n where
  handle _ := .unset
  buff := []
  got := []
  flag := 0

/--
What `Testlibc_func` calls, one after another. `random` opens, reads and closes `RANDOM_PATH`.
-/
inductive JobCall (n : Nat) where
  | fopen (i : Fin n)
  | random (j : Nat)
  | fwrite (i : Fin n) (j : Nat)
  | fsync (i : Fin n)
  | sync
  | fread (i : Fin n)
  | fclose (i : Fin n)
  | raise
deriving DecidableEq

def JobCall.rw {n : Nat} (j : Nat) (i : Fin n) : List (JobCall n) :=
  [.fwrite i j, .fsync i, .sync, .fread i]

def JobCall.round (n j : Nat) : List (JobCall n) :=
  .random j :: (List.finRange n).flatMap (JobCall.rw j)

/--
Nothing that is called decides what is called next.
-/
def testlibcFunc (n count : Nat) : List (JobCall n) :=
  (List.finRange n).map .fopen ++ (List.range count).flatMap (JobCall.round n)
    ++ (List.finRange n).map .fclose ++ [.raise]

/--
Which files can be opened, what `buff`, of `size` bytes, holds behind the read of each round, how many
bytes of it reach a file when they are written, and what `fwrite` and `fclose` return.
-/
structure JobAnswers (n size : Nat) where
  opens : Fin n → Bool
  random : Nat → Bytes
  random_length : ∀ j, (random j).length = size
  written : Fin n → Nat → Nat
  fwrite : Fin n → Nat → Nat
  fclose : Fin n → Int

def JobAnswers.block {n size : Nat} (answers : JobAnswers n size) (i : Fin n) (j : Nat) : Bytes :=
  (answers.random j).take (answers.written i j)

section Step

variable {n size : Nat} {P : Type}

def Job.setHandle (job : Job n) (i : Fin n) (handle : Handle) : Job n :=
  { job with handle := Function.update job.handle i handle }

/--
The wrappers do nothing with a null handle. One that was never set or is closed is not to be used.
-/
def Job.onStream (job : Job n) (i : Fin n) (files : Files P)
    (call : Stream → Option (Files P × Job n)) : Option (Files P × Job n) :=
  match job.handle i with
  | .null => some (files, job)
  | .opened stream => call stream
  | .unset | .closed => none

def JobCall.step [DecidableEq P] (answers : JobAnswers n size) (path : Fin n → P) (files : Files P)
    (job : Job n) : JobCall n → Option (Files P × Job n)
  | .fopen i =>
    if answers.opens i then
      let (files, stream) := Stdio.fopen files (path i)
      some (files, job.setHandle i (.opened stream))
    else
      some (files, job.setHandle i .null)
  | .random j => some (files, { job with buff := answers.random j })
  | .fwrite i j => job.onStream i files fun stream => do
    let (files, stream) ← Stdio.fwrite files (path i) stream (job.buff.take (answers.written i j))
    return (files, job.setHandle i (.opened stream))
  | .fsync i => job.onStream i files fun stream => do
    let stream ← Stdio.fflush stream
    return (files, job.setHandle i (.opened stream))
  | .sync => some (files, job)
  | .fread i => job.onStream i files fun stream => do
    let (stream, bytes) ← Stdio.fread files (path i) stream size
    let job := job.setHandle i (.opened stream)
    return (files, { job with
      buff := bytes ++ job.buff.drop bytes.length
      got := job.got ++ [bytes.length] })
  | .fclose i => job.onStream i files fun _ => some (files, job.setHandle i .closed)
  | .raise => some (files, { job with flag := 1 })

end Step

structure World (jobsNum n : Nat) where
  files : Files CStr
  job : Fin jobsNum → Job n

namespace World

variable {jobsNum n size : Nat}

def start (files : Files CStr) : World jobsNum n where
  files := files
  job _ := .start n

def step (answers : Fin jobsNum → JobAnswers n size) (k : Fin jobsNum) (call : JobCall n)
    (w : World jobsNum n) : Option (World jobsNum n) := do
  let (files, job) ← call.step (answers k) (testPath k ·) w.files (w.job k)
  return { files, job := Function.update w.job k job }

/-- What a job sees: its variables and its own files under their numbers. -/
def view (k : Fin jobsNum) (w : World jobsNum n) : Files (Fin n) × Job n :=
  (w.files ∘ (testPath k ·), w.job k)

def own (answers : Fin jobsNum → JobAnswers n size) (k : Fin jobsNum) (call : JobCall n)
    (v : Files (Fin n) × Job n) : Option (Files (Fin n) × Job n) :=
  call.step (answers k) id v.1 v.2

end World

section Separate

variable {n size : Nat} {P : Type} {files files' : Files P} {job job' : Job n} {path : Fin n → P}

theorem Job.onStream_comp {i : Fin n} {call : Stream → Option (Files P × Job n)}
    {call' : Stream → Option (Files (Fin n) × Job n)}
    (h : ∀ stream, (call stream).map (fun r => (r.1 ∘ path, r.2)) = call' stream)
    : (job.onStream i files call).map (fun r => (r.1 ∘ path, r.2))
      = job.onStream i (files ∘ path) call' := by
  unfold onStream
  cases job.handle i with
  | opened stream => exact h stream
  | _ => rfl

theorem Job.onStream_some {i : Fin n} {call : Stream → Option (Files P × Job n)}
    {r : Files P × Job n} (h : job.onStream i files call = some r)
    : r = (files, job) ∨ ∃ stream, job.handle i = .opened stream ∧ call stream = some r := by
  unfold onStream at h
  split at h
  . exact .inl (Option.some.inj h).symm
  . next stream hhandle => exact .inr ⟨stream, hhandle, h⟩
  all_goals cases h

variable [DecidableEq P] {answers : JobAnswers n size}

theorem JobCall.step_comp (hpath : Function.Injective path) (call : JobCall n)
    : (call.step answers path files job).map (fun r => (r.1 ∘ path, r.2))
      = call.step answers id (files ∘ path) job := by
  cases call with
  | random j => rfl
  | sync => rfl
  | raise => rfl
  | fopen i =>
    simp only [step]
    split
    . exact congrArg (fun files => some (files, _)) (fopen_comp hpath)
    . rfl
  | fwrite i j =>
    apply Job.onStream_comp
    intro stream
    simp only [id, ← fwrite_comp hpath]
    cases Stdio.fwrite files (path i) stream (job.buff.take (answers.written i j)) <;> rfl
  | fsync i =>
    apply Job.onStream_comp
    intro stream
    cases fflush stream <;> rfl
  | fread i =>
    apply Job.onStream_comp
    intro stream
    simp only [id, ← fread_comp]
    cases Stdio.fread files (path i) stream size <;> rfl
  | fclose i =>
    apply Job.onStream_comp
    intro stream
    rfl

def Job.Reaches (answers : JobAnswers n size) (job : Job n) (i : Fin n) : Prop :=
  answers.opens i = true ∨ ∃ stream, job.handle i = .opened stream

/--
What a call can do: it puts content into a file that the job reaches or into none, reaches no more
files, and forgets nothing that has been got by a read.
-/
structure JobCall.Effect (answers : JobAnswers n size) (path : Fin n → P) (files files' : Files P)
    (job job' : Job n) : Prop where
  files : files' = files ∨ ∃ i content, job.Reaches answers i
    ∧ files' = Function.update files (path i) (some content)
  reaches : ∀ i, job'.Reaches answers i → job.Reaches answers i
  got : job.got <+: job'.got

theorem JobCall.Effect.refl : Effect answers path files files job job where
  files := .inl rfl
  reaches _ h := h
  got := List.prefix_rfl

theorem Job.Reaches.of_setHandle {i k : Fin n} {handle : Handle}
    (hi : job.Reaches answers i ∨ ∀ stream, handle ≠ .opened stream)
    (h : (job.setHandle i handle).Reaches answers k) : job.Reaches answers k := by
  rcases h with hopens | ⟨stream, hstream⟩
  . exact .inl hopens
  . unfold setHandle at hstream
    dsimp only at hstream
    by_cases hk : k = i
    . subst hk
      rw [Function.update_self] at hstream
      rcases hi with hreaches | hnever
      . exact hreaches
      . exact absurd hstream (hnever stream)
    . rw [Function.update_of_ne hk] at hstream
      exact .inr ⟨stream, hstream⟩

theorem JobCall.step_effect {call : JobCall n}
    (h : call.step answers path files job = some (files', job'))
    : Effect answers path files files' job job' := by
  cases call with
  | random | sync | raise =>
    cases h
    exact { Effect.refl with }
  | fopen i =>
    simp only [step] at h
    split at h
    . next hopens =>
      cases h
      exact ⟨.inr ⟨i, [], .inl hopens, rfl⟩, fun _ => .of_setHandle (.inl (.inl hopens)),
        List.prefix_rfl⟩
    . cases h
      exact ⟨.inl rfl, fun _ => .of_setHandle (.inr nofun), List.prefix_rfl⟩
  | fwrite i j =>
    rcases Job.onStream_some h with heq | ⟨stream, hhandle, hcall⟩
    . cases heq
      exact .refl
    . obtain ⟨⟨files'', stream'⟩, hwrite, hcall⟩ := Option.bind_eq_some_iff.mp hcall
      cases hcall
      obtain ⟨content, hcontent⟩ := fwrite_files hwrite
      have hreaches : job.Reaches answers i := .inr ⟨stream, hhandle⟩
      exact ⟨.inr ⟨i, content, hreaches, hcontent⟩, fun _ => .of_setHandle (.inl hreaches),
        List.prefix_rfl⟩
  | fsync i =>
    rcases Job.onStream_some h with heq | ⟨stream, hhandle, hcall⟩
    . cases heq
      exact .refl
    . obtain ⟨stream', _, hcall⟩ := Option.bind_eq_some_iff.mp hcall
      cases hcall
      exact ⟨.inl rfl, fun _ => .of_setHandle (.inl (.inr ⟨stream, hhandle⟩)), List.prefix_rfl⟩
  | fread i =>
    rcases Job.onStream_some h with heq | ⟨stream, hhandle, hcall⟩
    . cases heq
      exact .refl
    . obtain ⟨r, _, hcall⟩ := Option.bind_eq_some_iff.mp hcall
      cases hcall
      exact ⟨.inl rfl, fun _ => .of_setHandle (.inl (.inr ⟨stream, hhandle⟩)),
        List.prefix_append ..⟩
  | fclose i =>
    rcases Job.onStream_some h with heq | ⟨stream, hhandle, hcall⟩
    . cases heq
      exact .refl
    . cases hcall
      exact ⟨.inl rfl, fun _ => .of_setHandle (.inr nofun), List.prefix_rfl⟩

theorem JobCall.step_other {p : P} (hp : ∀ i, p ≠ path i) {call : JobCall n}
    (h : call.step answers path files job = some (files', job')) : files' p = files p := by
  rcases (step_effect h).files with hsame | ⟨i, content, _, hupdate⟩
  . rw [hsame]
  . rw [hupdate, Function.update_of_ne (hp i)]

theorem JobCall.step_got {call : JobCall n}
    (h : call.step answers path files job = some (files', job')) : job.got <+: job'.got :=
  (step_effect h).got

end Separate

inductive Phase where
  | untouched
  | opened (rounds : Nat)
  | closed (rounds : Nat)

section Run

variable {n size : Nat}

namespace Phase

/-- Behind a round the stream is at the end of the file and knows it. -/
def handle (answers : JobAnswers n size) (i : Fin n) : Phase → Handle
  | untouched => .unset
  | opened rounds =>
    if answers.opens i then
      .opened { position := ((List.range rounds).flatMap (answers.block i)).length
                eof := decide (0 < rounds)
                last := if rounds = 0 then .flushed else .endOfFile }
    else
      .null
  | closed _ => if answers.opens i then .closed else .null

def content (answers : JobAnswers n size) (content : Option Bytes) (i : Fin n)
    : Phase → Option Bytes
  | untouched => content
  | opened rounds | closed rounds =>
    if answers.opens i then some ((List.range rounds).flatMap (answers.block i)) else content

end Phase

structure Job.At (answers : JobAnswers n size) (files : Files (Fin n)) (phase : Fin n → Phase)
    (v : Files (Fin n) × Job n) : Prop where
  handle : ∀ i, v.2.handle i = (phase i).handle answers i
  content : ∀ i, v.1 i = (phase i).content answers (files i) i
  got : ∀ bytes ∈ v.2.got, bytes = 0

def Job.run (answers : JobAnswers n size) (v : Files (Fin n) × Job n) (calls : List (JobCall n))
    : Option (Files (Fin n) × Job n) :=
  calls.foldlM (fun v call => call.step answers id v.1 v.2) v

variable {answers : JobAnswers n size} {files : Files (Fin n)} {phase : Fin n → Phase}
  {v : Files (Fin n) × Job n} {i : Fin n} {j : Nat}

theorem Job.run_append {calls calls' : List (JobCall n)}
    : Job.run answers v (calls ++ calls')
      = (Job.run answers v calls).bind (Job.run answers · calls') := by
  simp [Job.run, List.foldlM_append]

theorem Job.run_got {calls : List (JobCall n)} {w : Files (Fin n) × Job n}
    (h : Job.run answers v calls = some w) : v.2.got <+: w.2.got := by
  induction calls generalizing v with
  | nil =>
    cases h
    exact List.prefix_rfl
  | cons call calls ih =>
    obtain ⟨mid, hmid, hrest⟩ := Option.bind_eq_some_iff.mp h
    exact (JobCall.step_got hmid).trans (ih hrest)

theorem JobAnswers.blocks_full (rounds : Nat) (hfull : ∀ j < rounds, size ≤ answers.written i j)
    : (List.range rounds).flatMap (answers.block i) = (List.range rounds).flatMap answers.random
        ∧ ((List.range rounds).flatMap answers.random).length = rounds * size := by
  refine ⟨List.flatMap_congr ?_, by simp [List.length_flatMap, answers.random_length]⟩
  intro j hj
  apply List.take_of_length_le
  rw [answers.random_length]
  exact hfull j (List.mem_range.mp hj)

theorem Job.At.update {w : Files (Fin n) × Job n} (h : Job.At answers files phase v) (p : Phase)
    (hhandle : w.2.handle = Function.update v.2.handle i (p.handle answers i))
    (hcontent : w.1 = Function.update v.1 i (p.content answers (files i) i))
    (hgot : ∀ bytes ∈ w.2.got, bytes = 0)
    : Job.At answers files (Function.update phase i p) w where
  handle k := by
    rw [hhandle]
    by_cases hk : k = i
    . subst hk
      simp
    . simp [hk, h.handle]
  content k := by
    rw [hcontent]
    by_cases hk : k = i
    . subst hk
      simp
    . simp [hk, h.content]
  got := hgot

theorem Job.At.fopen (h : Job.At answers files phase v) (hi : phase i = .untouched)
    : ∃ w, JobCall.step answers id v.1 v.2 (.fopen i) = some w
        ∧ Job.At answers files (Function.update phase i (.opened 0)) w := by
  have hcontent := h.content i
  rw [hi] at hcontent
  simp only [JobCall.step]
  split
  . next hopens =>
    refine ⟨_, rfl, h.update (.opened 0) ?_ ?_ h.got⟩
    . simp [Job.setHandle, Phase.handle, hopens, Stdio.fopen]
    . simp [Phase.content, hopens, Stdio.fopen]
  . next hopens =>
    refine ⟨_, rfl, h.update (.opened 0) ?_ ?_ h.got⟩
    . simp [Job.setHandle, Phase.handle, hopens]
    . simp only [Phase.content, hopens, Bool.false_eq_true, if_false]
      exact (Function.update_eq_self_iff.mpr hcontent.symm).symm

theorem Job.At.rw_null (h : Job.At answers files phase v) (hi : phase i = .opened j)
    (hopens : answers.opens i = false)
    : Job.run answers v (JobCall.rw j i) = some v
        ∧ Job.At answers files (Function.update phase i (.opened (j + 1))) v := by
  have hhandle := h.handle i
  have hcontent := h.content i
  simp only [hi, Phase.handle, Phase.content, hopens, Bool.false_eq_true, if_false]
    at hhandle hcontent
  refine ⟨by simp [Job.run, JobCall.rw, JobCall.step, Job.onStream, hhandle], ?_⟩
  apply h.update _ _ _ h.got
  . simp [Phase.handle, hopens, ← hhandle]
  . simp [Phase.content, hopens, ← hcontent]

theorem Job.run_rw (answers : JobAnswers n size) {stream : Stream} {content block : Bytes}
    (hhandle : v.2.handle i = .opened stream) (hcontent : v.1 i = some content)
    (hlast : stream.last ≠ .input) (hposition : stream.position = content.length)
    (hblock : v.2.buff.take (answers.written i j) = block) (hsize : 0 < size)
    : Job.run answers v (JobCall.rw j i)
      = some (Function.update v.1 i (some (content ++ block)),
          { v.2 with
            handle := Function.update v.2.handle i (.opened
              { position := stream.position + block.length, eof := true, last := .endOfFile })
            got := v.2.got ++ [0] }) := by
  let files := Function.update v.1 i (some (content ++ block))
  let written : Stream :=
    { position := stream.position + block.length, eof := stream.eof, last := .output }
  let flushed : Stream := { written with last := .flushed }
  have hfile : files i = some (content ++ block) := Function.update_self ..
  have hwrite : JobCall.step answers id v.1 v.2 (.fwrite i j)
      = some (files, v.2.setHandle i (.opened written)) := by
    simp only [JobCall.step, Job.onStream, hhandle, hblock, id]
    rw [fwrite_end hcontent hlast hposition]
    rfl
  have hsync : JobCall.step answers id files (v.2.setHandle i (.opened written)) (.fsync i)
      = some (files, v.2.setHandle i (.opened flushed)) := by
    simp [JobCall.step, Job.onStream, Job.setHandle, fflush, written, flushed]
  have hend : flushed.position = (content ++ block).length := by
    simp [flushed, written, hposition]
  have hread : Stdio.fread files i flushed size
      = some ({ position := flushed.position, eof := true, last := .endOfFile }, []) :=
    fread_end hfile (by simp [flushed]) hend hsize
  simp only [Job.run, JobCall.rw, List.foldlM_cons, List.foldlM_nil, hwrite, hsync,
    Option.bind_eq_bind, Option.bind_some]
  simp [JobCall.step, Job.onStream, Job.setHandle, hread, files, flushed, written]

theorem Job.At.rw_opened (hsize : 0 < size) (h : Job.At answers files phase v)
    (hi : phase i = .opened j) (hopens : answers.opens i = true)
    (hbuff : v.2.buff = answers.random j)
    : ∃ w, Job.run answers v (JobCall.rw j i) = some w ∧ w.2.buff = v.2.buff
        ∧ Job.At answers files (Function.update phase i (.opened (j + 1))) w := by
  have hhandle := h.handle i
  have hcontent := h.content i
  simp only [hi, Phase.handle, Phase.content, hopens, if_true] at hhandle hcontent
  have hlast : (if j = 0 then Last.flushed else Last.endOfFile) ≠ .input := by
    split <;> decide
  have hblock : v.2.buff.take (answers.written i j) = answers.block i j := by
    rw [hbuff]
    rfl
  have hrun := Job.run_rw answers hhandle hcontent hlast rfl hblock hsize
  refine ⟨_, hrun, rfl, h.update (.opened (j + 1)) ?_ ?_ ?_⟩
  . simp [Phase.handle, hopens, List.range_succ]
  . simp [Phase.content, hopens, List.range_succ]
  . simpa [or_imp, forall_and] using h.got

theorem Job.At.rw (hsize : 0 < size) (h : Job.At answers files phase v) (hi : phase i = .opened j)
    (hbuff : v.2.buff = answers.random j)
    : ∃ w, Job.run answers v (JobCall.rw j i) = some w ∧ w.2.buff = answers.random j
        ∧ Job.At answers files (Function.update phase i (.opened (j + 1))) w := by
  cases hopens : answers.opens i with
  | false =>
    obtain ⟨hrun, hat⟩ := h.rw_null hi hopens
    exact ⟨v, hrun, hbuff, hat⟩
  | true =>
    obtain ⟨w, hrun, hsame, hat⟩ := h.rw_opened hsize hi hopens hbuff
    exact ⟨w, hrun, hsame.trans hbuff, hat⟩

theorem Job.At.fclose (h : Job.At answers files phase v) (hi : phase i = .opened j)
    : ∃ w, JobCall.step answers id v.1 v.2 (.fclose i) = some w
        ∧ Job.At answers files (Function.update phase i (.closed j)) w := by
  have hhandle := h.handle i
  have hcontent := h.content i
  have hsame : v.1 = Function.update v.1 i ((Phase.closed j).content answers (files i) i) := by
    rw [hi] at hcontent
    exact (Function.update_eq_self_iff.mpr hcontent.symm).symm
  cases hopens : answers.opens i with
  | false =>
    simp only [hi, Phase.handle, hopens, Bool.false_eq_true, if_false] at hhandle
    refine ⟨v, by simp [JobCall.step, Job.onStream, hhandle], h.update (.closed j) ?_ hsame h.got⟩
    simp [Phase.handle, hopens, ← hhandle]
  | true =>
    simp only [hi, Phase.handle, hopens, if_true] at hhandle
    refine ⟨(v.1, v.2.setHandle i .closed), by simp [JobCall.step, Job.onStream, hhandle],
      h.update (.closed j) ?_ hsame h.got⟩
    simp [Job.setHandle, Phase.handle, hopens]

theorem Job.At.loop (calls : Fin n → List (JobCall n)) {p q : Phase} {I : Job n → Prop}
    (hstep : ∀ {phase : Fin n → Phase} {v i}, Job.At answers files phase v → phase i = p → I v.2 →
      ∃ w, Job.run answers v (calls i) = some w ∧ I w.2
        ∧ Job.At answers files (Function.update phase i q) w)
    (h : Job.At answers files (fun _ => p) v) (hv : I v.2)
    : ∃ w, Job.run answers v ((List.finRange n).flatMap calls) = some w ∧ I w.2
        ∧ Job.At answers files (fun _ => q) w := by
  obtain ⟨w, hrun, hw, hat⟩ := Loop.foldlM_nodup (fun v i => Job.run answers v (calls i))
    (fun done v => I v.2 ∧ Job.At answers files (fun i => if i ∈ done then q else p) v)
    (List.nodup_finRange n)
    (by
      intro done i v hi hv
      obtain ⟨w, hrun, hw, hat⟩ := hstep hv.2 (if_neg hi) hv.1
      refine ⟨w, hrun, hw, ?_⟩
      convert hat using 1
      funext k
      by_cases hk : k = i
      . simp [hk]
      . simp [hk])
    ⟨hv, by simpa using h⟩
  refine ⟨w, ?_, hw, by simpa using hat⟩
  rw [← hrun]
  exact Loop.foldlM_flatMap

theorem Job.run_singleton {call : JobCall n}
    : Job.run answers v [call] = call.step answers id v.1 v.2 := by
  simp [Job.run]

theorem Job.At.start (answers : JobAnswers n size) (files : Files (Fin n))
    : Job.At answers files (fun _ => .untouched) (files, .start n) where
  handle _ := rfl
  content _ := rfl
  got := by simp [Job.start]

theorem Job.At.rounds (hsize : 0 < size) (count : Nat)
    (h : Job.At answers files (fun _ => .opened 0) v)
    : ∃ w, Job.run answers v ((List.range count).flatMap (JobCall.round n)) = some w
        ∧ Job.At answers files (fun _ => .opened count) w := by
  induction count with
  | zero => exact ⟨v, rfl, h⟩
  | succ j ih =>
    obtain ⟨w, hrun, hat⟩ := ih
    let filled : Files (Fin n) × Job n := (w.1, { w.2 with buff := answers.random j })
    have hfilled : Job.At answers files (fun _ => .opened j) filled :=
      { handle := hat.handle, content := hat.content, got := hat.got }
    obtain ⟨t, hloop, _, hat⟩ := hfilled.loop (JobCall.rw j) (q := .opened (j + 1))
      (I := fun job => job.buff = answers.random j) (fun h hi hbuff => h.rw hsize hi hbuff) rfl
    refine ⟨t, ?_, hat⟩
    rw [List.range_succ, List.flatMap_append, Job.run_append, hrun, Option.bind_some,
      List.flatMap_singleton]
    exact hloop

theorem Job.run_testlibcFunc (answers : JobAnswers n size) (hsize : 0 < size)
    (files : Files (Fin n)) (count : Nat)
    : ∃ w, Job.run answers (files, .start n) (testlibcFunc n count) = some w ∧ w.2.flag = 1
        ∧ Job.At answers files (fun _ => .closed count) w := by
  obtain ⟨opened, hopen, _, hat⟩ := (Job.At.start answers files).loop
    (fun i => [.fopen i]) (q := .opened 0) (I := fun _ => True)
    (fun h hi _ => by simpa [Job.run_singleton] using h.fopen hi) trivial
  obtain ⟨written, hrounds, hat⟩ := hat.rounds hsize count
  obtain ⟨closed, hclose, _, hat⟩ := hat.loop (fun i => [.fclose i]) (q := .closed count)
    (I := fun _ => True) (fun h hi _ => by simpa [Job.run_singleton] using h.fclose hi) trivial
  refine ⟨(closed.1, { closed.2 with flag := 1 }), ?_, rfl,
    { handle := hat.handle, content := hat.content, got := hat.got }⟩
  rw [← List.map_eq_flatMap] at hopen hclose
  simp only [testlibcFunc, Job.run_append, hopen, hrounds, hclose, Option.bind_some,
    Job.run_singleton]
  rfl

end Run

section Interleaved

variable {jobsNum n size : Nat}

theorem testPath_fin_injective (hjobs : jobsNum ≤ 64) (halone : jobsNum = 1 ∨ n ≤ 64)
    (hn : n < 2 ^ 32) {k l : Fin jobsNum} {i j : Fin n} (h : testPath k i = testPath l j) : k = l ∧ i = j := by
  rw [testPath_eq_iff] at h
  have hk := k.isLt
  have hl := l.isLt
  have hi := i.isLt
  have hj := j.isLt
  rw [Fin.ext_iff, Fin.ext_iff]
  cases halone with
  | inl hone => omega
  | inr hfew => omega

theorem World.separate (hjobs : jobsNum ≤ 64) (halone : jobsNum = 1 ∨ n ≤ 64) (hn : n < 2 ^ 32)
    (answers : Fin jobsNum → JobAnswers n size)
    : Weave.Separate (World.step answers) World.view (World.own answers) where
  own_eq k call w := by
    have hpath : Function.Injective fun i : Fin n => testPath k i :=
      fun i j h => (testPath_fin_injective hjobs halone hn h).2
    unfold own view
    rw [← JobCall.step_comp hpath]
    unfold step
    cases call.step (answers k) (testPath k ·) w.files (w.job k) <;> simp
  other_eq k l call w t h hne := by
    obtain ⟨⟨files, job⟩, hcall, ht⟩ := Option.bind_eq_some_iff.mp h
    cases ht
    refine Prod.ext ?_ (Function.update_of_ne hne _ _)
    funext i
    apply JobCall.step_other _ hcall
    intro j h
    exact hne (testPath_fin_injective hjobs halone hn h).1

/--
The calls of all jobs up to some point, each job making its own in the order of `Testlibc_func`.
-/
def World.Interleaves (count : Nat) (calls : List (Fin jobsNum × JobCall n)) : Prop :=
  ∀ k, Weave.stepsOf k calls <+: testlibcFunc n count

variable {answers : Fin jobsNum → JobAnswers n size} {files : Files CStr} {count : Nat}
  {calls : List (Fin jobsNum × JobCall n)} {w : World jobsNum n}

theorem World.run_own (answers : Fin jobsNum → JobAnswers n size) (files : Files CStr)
    (hsize : 0 < size) (hcalls : World.Interleaves count calls) (k : Fin jobsNum)
    : ∃ v w, Job.run (answers k) ((World.start files).view k) (Weave.stepsOf k calls) = some v
        ∧ Job.run (answers k) ((World.start files).view k) (testlibcFunc n count) = some w
        ∧ v.2.got <+: w.2.got ∧ w.2.flag = 1
        ∧ Job.At (answers k) (files ∘ (testPath k ·)) (fun _ => .closed count) w := by
  obtain ⟨w, hrun, hflag, hat⟩ := Job.run_testlibcFunc (answers k) hsize
    (files ∘ (testPath k ·)) count
  obtain ⟨v, rest, hown, hrest⟩ := Loop.foldlM_of_prefix (hcalls k) hrun
  exact ⟨v, w, hown, hrun, Job.run_got hrest, hflag, hat⟩

theorem World.step_other {k : Fin jobsNum} {call : JobCall n} {w t : World jobsNum n} {p : CStr}
    (hp : ∀ (k : Fin jobsNum) (i : Fin n), p ≠ testPath k i)
    (h : World.step answers k call w = some t)
    : t.files p = w.files p := by
  obtain ⟨⟨files, job⟩, hcall, ht⟩ := Option.bind_eq_some_iff.mp h
  cases ht
  exact JobCall.step_other (hp k) hcall

theorem World.run_interleaved (answers : Fin jobsNum → JobAnswers n size) (files : Files CStr)
    (hsize : 0 < size) (hjobs : jobsNum ≤ 64)
    (halone : jobsNum = 1 ∨ n ≤ 64) (hn : n < 2 ^ 32) (hcalls : World.Interleaves count calls)
    : ∃ w, Weave.run (World.step answers) (World.start files) calls = some w
        ∧ (∀ k, ∀ bytes ∈ (w.job k).got, bytes = 0)
        ∧ (∀ p, (∀ (k : Fin jobsNum) (i : Fin n), p ≠ testPath k i) → w.files p = files p)
        ∧ ∀ k, Weave.stepsOf k calls = testlibcFunc n count → (w.job k).flag = 1
          ∧ ∀ i : Fin n, w.files (testPath k i)
            = (Phase.closed count).content (answers k) (files (testPath k i)) i := by
  have hseparate := World.separate hjobs halone hn answers
  obtain ⟨w, hrun⟩ := hseparate.exists_run (s := World.start files) (by
    intro k
    obtain ⟨v, _, hown, _⟩ := World.run_own answers files hsize hcalls k
    exact ⟨v, hown⟩)
  have hview (k : Fin jobsNum)
      : Job.run (answers k) ((World.start files).view k) (Weave.stepsOf k calls)
        = some (w.view k) := hseparate.view_run hrun k
  refine ⟨w, hrun, ?_, ?_, ?_⟩
  . intro k bytes hbytes
    obtain ⟨v, _, hown, _, hgot, _, hat⟩ := World.run_own answers files hsize hcalls k
    rw [hview k] at hown
    cases hown
    exact hat.got bytes (hgot.subset hbytes)
  . intro p hp
    exact Weave.run_keeps (fun w => w.files p) (fun _ _ _ _ h => World.step_other hp h) hrun
  . intro k hk
    obtain ⟨_, v, _, hall, _, hflag, hat⟩ := World.run_own answers files hsize hcalls k
    rw [← hk, hview k] at hall
    cases hall
    exact ⟨hflag, hat.content⟩

end Interleaved

structure World.Filled {jobsNum n size : Nat} (answers : Fin jobsNum → JobAnswers n size)
    (files : Files CStr) (count rwsize : Nat) (calls : List (Fin jobsNum × JobCall n))
    (w : World jobsNum n) : Prop where
  got : ∀ k, ∀ bytes ∈ (w.job k).got, bytes = 0
  other : ∀ p, (∀ (k : Fin jobsNum) (i : Fin n), p ≠ testPath k i) → w.files p = files p
  flag : ∀ k, Weave.stepsOf k calls = testlibcFunc n count → (w.job k).flag = 1
  closed : ∀ k, Weave.stepsOf k calls = testlibcFunc n count → ∀ i : Fin n,
    (answers k).opens i = true →
      w.files (testPath k i) = some ((List.range count).flatMap ((answers k).block i))
        ∧ ((∀ j < count, size ≤ (answers k).written i j) →
          (List.range count).flatMap ((answers k).block i)
              = (List.range count).flatMap (answers k).random
            ∧ ((List.range count).flatMap (answers k).random).length = count * rwsize * 1024)
  unopened : ∀ k, Weave.stepsOf k calls = testlibcFunc n count → ∀ i : Fin n,
    (answers k).opens i = false → w.files (testPath k i) = files (testPath k i)

theorem jobs_interleaved {uRemainSize jobsNum filesize rwsize : Nat} (hremain : uRemainSize < 2 ^ 32)
    (hjobs : 1 ≤ jobsNum ∧ jobsNum ≤ 64) (hfilesize : 1 ≤ filesize ∧ filesize ≤ 1024)
    (hrwsize : 1 ≤ rwsize ∧ rwsize ≤ 1024)
    (hfilenum : 1 ≤ prejobfilenum uRemainSize jobsNum filesize)
    (halone : jobsNum = 1 ∨ prejobfilenum uRemainSize jobsNum filesize ≤ 64)
    : ∃ param count, threadParam uRemainSize jobsNum filesize rwsize = some (some param)
        ∧ param.count = some (count : Nat)
        ∧ ∀ (answers : Fin jobsNum → JobAnswers param.prejobfilenum param.writeSize)
            (files : Files CStr) (calls : List (Fin jobsNum × JobCall param.prejobfilenum)),
          World.Interleaves count calls →
            ∃ w, Weave.run (World.step answers) (World.start files) calls = some w
              ∧ World.Filled answers files count rwsize calls w := by
  have hlt := prejobsize_div_lt hfilesize.1 hfilenum
  refine ⟨_, _, threadParam_eq rwsize hjobs.1 hfilesize.1 hfilenum,
    ThreadParam.count_eq hfilesize.2 hfilenum hrwsize.1 hlt, ?_⟩
  intro answers files calls hcalls
  have hwriteSize : Word.mul 32 rwsize SIZE_1KB = rwsize * 1024 :=
    Word.mul_of_lt (by unfold SIZE_1KB; omega)
  have hn : prejobfilenum uRemainSize jobsNum filesize < 2 ^ 32 :=
    ((Nat.div_le_self _ _).trans (Nat.div_le_self _ _)).trans_lt hremain
  obtain ⟨w, hrun, hgot, hother, hthrough⟩ :=
    World.run_interleaved answers files
      (by rw [ThreadParam.writeSize, hwriteSize]; omega) hjobs.2 halone hn hcalls
  refine ⟨w, hrun, hgot, hother, fun k hk => (hthrough k hk).1, ?_, ?_⟩
  . intro k hk i hopens
    rw [(hthrough k hk).2 i]
    refine ⟨if_pos hopens, fun hfull => ?_⟩
    obtain ⟨hblocks, hlength⟩ := JobAnswers.blocks_full _ hfull
    refine ⟨hblocks, ?_⟩
    rw [hlength, ThreadParam.writeSize, hwriteSize, Nat.mul_assoc]
  . intro k hk i hopens
    rw [(hthrough k hk).2 i]
    exact if_neg (by simp [hopens])

theorem jobs_interleaved_card
    : ∃ param count, threadParam 29656 4 210 512 = some (some param)
        ∧ param.count = some (count : Nat)
        ∧ ∀ (answers : Fin 4 → JobAnswers param.prejobfilenum param.writeSize)
            (files : Files CStr) (calls : List (Fin 4 × JobCall param.prejobfilenum)),
          World.Interleaves count calls →
            ∃ w, Weave.run (World.step answers) (World.start files) calls = some w
              ∧ World.Filled answers files count 512 calls w :=
  jobs_interleaved (by decide) (by decide) (by decide) (by decide) (by decide) (by decide)

end FsBench
