import ProtonDrive.SharedPrograms
import ProtonDrive.Base64Texts
import ProtonDrive.RpcClient
import Mathlib.Data.List.DropRight

/-!
# How a drive is mounted

`do_mount` of `gvfsbackendproton.c` as a program: it finds or starts the helper, looks the stored
credentials up, resumes the session with them, stores the rotated ones and answers the mount job.
What it asks of its surroundings (the socket, the processes it spawns, the helper, the job) are
its queries.
-/

namespace ProtonDrive.Mounting
open DriveApi Programs Programs.Prog SharedPrograms RpcClient

/-- `G_IO_ERROR_INVALID_ARGUMENT`. -/
def invalidArgument : GIOErrorEnum := .other 13

/-- `G_IO_ERROR_TIMED_OUT`. -/
def timedOut : GIOErrorEnum := .other 24

inductive MountQuery
  | connect (socketPath : String)
  | isExecutable (path : String)
  | findProgramInPath (program : String)
  | unlink (socketPath : String)
  | spawn (argv : List String)
  | exists (path : String)
  | sleep
  | lookup (account field : String)
  | resume (uid refreshToken : String) (saltedPassphrase : Bytes)
  | store (account field secret : String)
  | publish (account : String)
  | jobFailed (error : Option GError)
  | jobSucceeded
  | startTimer
  deriving DecidableEq, Repr

/-- `resume` is FALSE with or without an error, or TRUE with the new uid and refresh token; the
output of a lookup is a location that the spawned process may leave null. -/
@[reducible] def MountAnswer : MountQuery → Type
  | .connect _ | .spawn _ => Option GError
  | .isExecutable _ | .exists _ => Bool
  | .findProgramInPath _ => Option String
  | .lookup _ _ => Except GError (Option String)
  | .resume _ _ _ => Except (Option GError) (Option String × Option String)
  | _ => Unit

abbrev MountOp (α : Type) := Prog Empty MountQuery MountAnswer α

def ask (q : MountQuery) : MountOp (MountAnswer q) := query q

section Programs

/-- `g_ascii_isspace`. -/
def isSpace (c : Char) : Bool :=
  c = ' ' ∨ c = '\t' ∨ c = '\n' ∨ c = Char.ofNat 12 ∨ c = '\r'

/-- `g_strchomp`. -/
def strchomp (s : String) : String := String.ofList (s.toList.reverse.dropWhile isSpace).reverse

theorem strchomp_idempotent (s : String) : strchomp (strchomp s) = strchomp s := by
  simp [strchomp, List.dropWhile_idempotent]

/-- A text that does not end in white space is left alone. -/
theorem strchomp_of_not_isSpace {s : String} (h : ∀ c ∈ s.toList, isSpace c = false) :
    strchomp s = s := by
  have hdrop : s.toList.reverse.dropWhile isSpace = s.toList.reverse := by
    rw [List.dropWhile_eq_self_iff]
    intro hl
    rw [h _ (List.mem_reverse.mp (List.getElem_mem hl))]
    decide
  rw [strchomp, hdrop, List.reverse_reverse, String.ofList_toList]

def libexecdirHelper (libexecdir : String) : String := libexecdir ++ "/proton-drive-helper"

def findHelperBinary (libexecdir : String) : MountOp (Option String) := do
  if ← ask (.isExecutable (libexecdirHelper libexecdir)) then
    pure (some (libexecdirHelper libexecdir))
  else ask (.findProgramInPath "proton-drive-helper")

/-- The loop of `wait_for_socket`, with the number of probes that are left. -/
def probe (path : String) : ℕ → MountOp Bool
  | 0 => pure false
  | n + 1 => do
    if ← ask (.exists path) then pure true
    else do
      ask .sleep
      probe path n

/-- A probe every 50 ms, as long as the time that has elapsed is below the timeout. -/
def waitForSocket (path : String) (timeoutMs : ℕ) : MountOp Bool :=
  probe path ((timeoutMs + 49) / 50)

def failJob (e : GError) : MountOp Unit := ask (.jobFailed (some e))

/-- Start a helper and connect to it; `false` when the job has failed. -/
def startHelper (libexecdir socketPath : String) : MountOp Bool := do
  match ← findHelperBinary libexecdir with
  | none => do
    failJob ⟨.io .notFound, "proton-drive-helper not found in libexecdir or PATH"⟩
    pure false
  | some helper => do
    ask (.unlink socketPath)
    match ← ask (.spawn [helper, "--socket", socketPath]) with
    | some e => do
      failJob e
      pure false
    | none =>
      if ← waitForSocket socketPath 5000 then
        match ← ask (.connect socketPath) with
        | some e => do
          failJob e
          pure false
        | none => pure true
      else do
        failJob ⟨.io timedOut, "timed out waiting for proton-drive-helper to start"⟩
        pure false

/-- A running helper is used if one answers on the socket. -/
def connectHelper (libexecdir socketPath : String) : MountOp Bool := do
  match ← ask (.connect socketPath) with
  | none => pure true
  | some _ => startHelper libexecdir socketPath

/-- `LOOKUP_FIELD`, with what follows it when the process could be spawned. -/
def lookupField (account field : String) (next : Option String → MountOp Unit) : MountOp Unit := do
  match ← ask (.lookup account field) with
  | .error e => failJob e
  | .ok out => next (out.map strchomp)

def storeRotated (account : String) : Option String → Option String → MountOp Unit
  | _, none => pure ()
  | none, some token => ask (.store account "refresh_token" token)
  | some uid, some token => do
    ask (.store account "uid" uid)
    ask (.store account "refresh_token" token)

def finishMount (account : String) : MountOp Unit := do
  ask (.publish account)
  ask .jobSucceeded
  ask .startTimer

def resumeWith (account uid refreshToken saltedPassB64 : String) : MountOp Unit := do
  match ← ask (.resume uid refreshToken (Base64Texts.decode saltedPassB64.toList)) with
  | .error e => ask (.jobFailed e)
  | .ok (newUid, newRefreshToken) => do
    storeRotated account newUid newRefreshToken
    finishMount account

def noCredentials : GError :=
  ⟨.io .notInitialized, "no stored credentials — run the Proton Drive setup wizard first"⟩

def resumeStored (account : String) : MountOp Unit :=
  lookupField account "uid" fun uid =>
    lookupField account "refresh_token" fun refreshToken =>
      lookupField account "salted_passphrase" fun saltedPassB64 =>
        match uid, refreshToken, saltedPassB64 with
        | some uid, some token, some saltedPass => resumeWith account uid token saltedPass
        | _, _, _ => failJob noCredentials

def socketPathOf (getuid : ℕ) (account : String) : String :=
  "/run/user/" ++ toString getuid ++ "/proton-drive-" ++ account ++ ".sock"

/-- `do_mount`; `host` is the account in the mount spec. -/
def doMount (libexecdir : String) (getuid : ℕ) (host : Option String) : MountOp Unit :=
  match host with
  | none | some "" => failJob ⟨.io invalidArgument,
      "URI must contain the account email as host, e.g. proton://you%40example.com/"⟩
  | some account => do
    if ← connectHelper libexecdir (socketPathOf getuid account) then resumeStored account
    else pure ()

end Programs

section Traces

variable {σ : Type} {account : String}

abbrev MountExchange := Exchange MountQuery MountAnswer

/-- What is asked before the session is resumed. -/
def Preparing : MountQuery → Prop
  | .resume _ _ _ | .store _ _ _ | .publish _ | .jobFailed _ | .jobSucceeded | .startTimer => False
  | _ => True

def Preparation (xs : List MountExchange) : Prop := ∀ x ∈ xs, Preparing x.1

/-- The stores of what a resumed session was given anew. -/
def givenAnew (account : String) (creds : Option String × Option String) : List MountExchange :=
  creds.1.toList.map (fun uid => ⟨.store account "uid" uid, ()⟩) ++
    creds.2.toList.map fun token => ⟨.store account "refresh_token" token, ()⟩

/-- What a mount asks and is answered, in order: the job fails before the session is resumed; or the
resumption fails, and so does the job, without an error when the helper has closed the connection;
or the session was resumed, what it was given anew is stored, the job succeeds, and only then the
timer starts. -/
inductive MountTrace (account : String) : List MountExchange → Prop
  | failed {pre : List MountExchange} (hpre : Preparation pre) (e : GError) :
      MountTrace account (pre ++ [⟨.jobFailed (some e), ()⟩])
  | refused {pre : List MountExchange} (hpre : Preparation pre) (uid token : String) (pass : Bytes)
      (e : Option GError) :
      MountTrace account (pre ++ [⟨.resume uid token pass, .error e⟩, ⟨.jobFailed e, ()⟩])
  | mounted {pre : List MountExchange} (hpre : Preparation pre) (uid token : String) (pass : Bytes)
      {creds : Option String × Option String} {stored : List MountExchange}
      (hs : stored.Sublist (givenAnew account creds)) :
      MountTrace account (pre ++ [⟨.resume uid token pass, .ok creds⟩] ++ stored ++
        [⟨.publish account, ()⟩, ⟨.jobSucceeded, ()⟩, ⟨.startTimer, ()⟩])

/-- `g_vfs_job_failed_from_error` answers nothing when there is no error. -/
def answersJob (x : MountExchange) : Bool :=
  match x.1 with
  | .jobFailed (some _) | .jobSucceeded => true
  | _ => false

/-- The helper closes the connection instead of answering. -/
def Closed (xs : List MountExchange) : Prop :=
  ∃ uid token pass, ⟨.resume uid token pass, .error none⟩ ∈ xs

theorem Preparation.countP {xs : List MountExchange} (h : Preparation xs) :
    xs.countP answersJob = 0 := by
  rw [List.countP_eq_zero]
  rintro ⟨q, r⟩ hx
  have hq := h _ hx
  cases q with
  | resume | store | publish | jobFailed | jobSucceeded | startTimer => cases hq
  | _ => exact Bool.false_ne_true

theorem countP_of_sublist {creds : Option String × Option String} {stored : List MountExchange}
    (hs : stored.Sublist (givenAnew account creds)) : stored.countP answersJob = 0 := by
  rw [List.countP_eq_zero]
  intro x hx
  rcases List.mem_append.mp (hs.subset hx) with hx | hx
  · obtain ⟨uid, -, rfl⟩ := List.mem_map.mp hx
    simp [answersJob]
  · obtain ⟨token, -, rfl⟩ := List.mem_map.mp hx
    simp [answersJob]

theorem resume_notMem_of_sublist {creds : Option String × Option String}
    {stored : List MountExchange} (hs : stored.Sublist (givenAnew account creds))
    {uid token : String} {pass : Bytes} {r : MountAnswer (.resume uid token pass)} :
    ⟨.resume uid token pass, r⟩ ∉ stored := by
  intro hx
  rcases List.mem_append.mp (hs.subset hx) with hx | hx
  · obtain ⟨uid, -, heq⟩ := List.mem_map.mp hx
    cases heq
  · obtain ⟨token, -, heq⟩ := List.mem_map.mp hx
    cases heq

/-- The job is answered once, or not at all when the helper has closed the connection. -/
theorem MountTrace.answers {xs : List MountExchange} (h : MountTrace account xs) :
    xs.countP answersJob ≤ 1 ∧ (xs.countP answersJob = 1 ↔ ¬Closed xs) := by
  have honce : ∀ {n : ℕ} {p : Prop}, n = 1 → ¬p → n ≤ 1 ∧ (n = 1 ↔ ¬p) :=
    fun hn hp => ⟨hn.le, iff_of_true hn hp⟩
  cases h with
  | @failed pre hpre e =>
    refine honce ?_ ?_
    · rw [List.countP_append, hpre.countP]
      rfl
    · rintro ⟨uid, token, pass, hx⟩
      rcases List.mem_append.mp hx with hx | hx
      · exact hpre _ hx
      · cases List.mem_singleton.mp hx
  | @refused pre hpre uid token pass e =>
    cases e with
    | none =>
      rw [List.countP_append, hpre.countP]
      exact ⟨Nat.zero_le 1, iff_of_false Nat.zero_ne_one
        fun hc => hc ⟨uid, token, pass, by simp⟩⟩
    | some e =>
      refine honce ?_ ?_
      · rw [List.countP_append, hpre.countP]
        rfl
      · rintro ⟨uid', token', pass', hx⟩
        rcases List.mem_append.mp hx with hx | hx
        · exact hpre _ hx
        · simp at hx
  | @mounted pre hpre uid token pass creds stored hs =>
    refine honce ?_ ?_
    · rw [List.countP_append, List.countP_append, List.countP_append, hpre.countP,
        countP_of_sublist hs]
      rfl
    · rintro ⟨uid', token', pass', hx⟩
      simp only [List.mem_append] at hx
      rcases hx with ((hx | hx) | hx) | hx
      · exact hpre _ hx
      · simp at hx
      · exact resume_notMem_of_sublist hs hx
      · simp at hx

variable {xs : List MountExchange}

end Traces

end ProtonDrive.Mounting
