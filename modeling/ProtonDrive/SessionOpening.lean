import ProtonDrive.SharedPrograms
import ProtonDrive.LoginSessions

/-!
# How a session is opened

`NewSession`, `NewSessionWithHV` and `ResumeSession` of `session.go` as programs over the API
calls they make: get a client, unlock the address keyring, find the main share. A step that fails
once there is a client revokes it again; a user without keys crashes the helper instead. What
go-proton-api computes from the keys is a parameter.
-/

namespace ProtonDrive.SessionOpening
open DriveApi Programs Programs.Prog FallibleSteps SharedPrograms
open LoginSessions (AuthResult LoginError)

/-- `proton.Auth`. -/
structure Auth where
  uid : String
  refreshToken : String
  accessToken : String
  deriving DecidableEq, Repr

structure UserKey where
  id : String
  privateKey : String
  deriving DecidableEq, Repr

structure User where
  keys : List UserKey
  deriving DecidableEq, Repr

structure Salt where
  id : String
  keySalt : String
  deriving DecidableEq, Repr

structure Address where
  id : String
  email : String
  deriving DecidableEq, Repr

inductive ShareType
  | main | standard | device
  deriving DecidableEq, Repr

/-- `proton.ShareMetadata`. -/
structure ShareMetadata where
  shareID : String
  volumeID : String
  linkID : LinkID
  type : ShareType
  deriving DecidableEq, Repr

/-- `proton.APIHVDetails`. -/
structure HVDetails where
  methods : List String
  token : String
  deriving DecidableEq, Repr

/-- How a login call fails; a demand for human verification may come without readable details. -/
inductive LoginFailure
  | api (e : ApiError)
  | humanVerification (details : Option HVDetails)
  deriving DecidableEq, Repr

inductive OpenError
  | login (e : LoginFailure)
  | hvRequired (details : HVDetails)
  | tokenRefresh (e : ApiError)
  | api (e : ApiError)
  | saltForKey
  | unlock
  | noAddressKeyRing
  | noMainShare
  | indexOutOfRange
  deriving DecidableEq, Repr

inductive LoginQuery
  | newClientWithLogin (username : String) (password : Bytes)
  | newClientWithLoginWithHVToken (username : String) (password : Bytes) (hv : HVDetails)
  | newClientWithRefresh (uid refreshToken : String)
  | getUser
  | getSalts
  | getAddresses
  | listShares
  | authDelete
  deriving DecidableEq, Repr

/-- The calls that make a client. -/
def LoginQuery.MakesClient : LoginQuery → Prop
  | .newClientWithLogin _ _ | .newClientWithLoginWithHVToken _ _ _ | .newClientWithRefresh _ _ =>
    True
  | _ => False

@[reducible] def LoginAnswer : LoginQuery → Type
  | .newClientWithLogin _ _ | .newClientWithLoginWithHVToken _ _ _ => Except LoginFailure Auth
  | .newClientWithRefresh _ _ => Except ApiError Auth
  | .getUser => Except ApiError User
  | .getSalts => Except ApiError (List Salt)
  | .getAddresses => Except ApiError (List Address)
  | .listShares => Except ApiError (List ShareMetadata)
  | .authDelete => Except ApiError Unit

abbrev LoginOp (α : Type) := Prog OpenError LoginQuery LoginAnswer α

/-- The key derivation and the unlocking of keys in go-proton-api. -/
structure KeyLibrary (KR : Type) where
  saltForKey : List Salt → Bytes → String → Option Bytes
  unlock : User → List Address → Bytes → Option (String → Option KR)

/-- The fields of the session that do not change; `uid` and `bearer` are its `authState`. -/
structure OpenSession (KR : Type) where
  shareID : String
  volumeID : String
  rootID : LinkID
  account : String
  addrEmail : String
  addrKR : KR
  uid : String
  bearer : String
  deriving DecidableEq, Repr

section Programs

variable {KR : Type}

def call (q : LoginQuery) : LoginOp (LoginAnswer q) := query q

def check {α : Type} : Except ApiError α → LoginOp α
  | .ok a => pure a
  | .error e => .fail (.api e)

/-- `_ = c.AuthDelete(ctx)` before an error is returned; a crash does not come back here. -/
def revoke {α : Type} : OpenError → LoginOp α
  | .indexOutOfRange => .fail .indexOutOfRange
  | e => do
    let _ ← call .authDelete
    .fail e

variable (K : KeyLibrary KR)

/-- The keyring and the email of the first address that was unlocked. -/
def unlockWithSaltedPassphrase (saltedPass : Bytes) : LoginOp (KR × String) := do
  let user ← call .getUser >>= check
  let addrs ← call .getAddresses >>= check
  match K.unlock user addrs saltedPass with
  | none => .fail .unlock
  | some addrKRs => match addrs.findSome? fun addr => (addrKRs addr.id).map (·, addr.email) with
    | none => .fail .noAddressKeyRing
    | some r => pure r

def unlockPrimaryAddress (password : Bytes) : LoginOp (KR × String × Bytes) := do
  let user ← call .getUser >>= check
  let salts ← call .getSalts >>= check
  match user.keys with
  | [] => .fail .indexOutOfRange
  | key :: _ => match K.saltForKey salts password key.id with
    | none => .fail .saltForKey
    | some saltedPass => do
      let r ← unlockWithSaltedPassphrase K saltedPass
      pure (r.1, r.2, saltedPass)

def findMainShare : LoginOp ShareMetadata := do
  let shares ← call .listShares >>= check
  match shares.find? (·.type = .main) with
  | none => .fail .noMainShare
  | some share => pure share

/-- The two steps that every opening takes once it has a client. -/
def withClient (unlocking : LoginOp (KR × String × Bytes)) (auth : Auth) (account : String) :
    LoginOp (OpenSession KR × AuthResult) := do
  let r ← unlocking.recover revoke
  let share ← findMainShare.recover revoke
  pure (⟨share.shareID, share.volumeID, share.linkID, account, r.2.1, r.1, auth.uid,
    auth.accessToken⟩, ⟨auth.uid, auth.refreshToken, r.2.2⟩)

def loginError : LoginFailure → OpenError
  | .humanVerification (some details) => .hvRequired details
  | e => .login e

def newSession (username : String) (password : Bytes) :
    LoginOp (OpenSession KR × AuthResult) := do
  match ← call (.newClientWithLogin username password) with
  | .error e => .fail (loginError e)
  | .ok auth => withClient (unlockPrimaryAddress K password) auth username

def newSessionWithHV (username : String) (password : Bytes) (hvToken hvType : String) :
    LoginOp (OpenSession KR × AuthResult) := do
  match ← call (.newClientWithLoginWithHVToken username password ⟨[hvType], hvToken⟩) with
  | .error e => .fail (.login e)
  | .ok auth => withClient (unlockPrimaryAddress K password) auth username

def resumeSession (creds : AuthResult) (account : String) :
    LoginOp (OpenSession KR × AuthResult) := do
  match ← call (.newClientWithRefresh creds.uid creds.refreshToken) with
  | .error e => .fail (.tokenRefresh e)
  | .ok auth =>
    withClient (do
      let r ← unlockWithSaltedPassphrase K creds.saltedPassphrase
      pure (r.1, r.2, creds.saltedPassphrase)) auth (if account = "" then creds.uid else account)

inductive Opening
  | login (username : String) (password : Bytes)
  | loginWithHV (username : String) (password : Bytes) (hvToken hvType : String)
  | resume (creds : AuthResult) (account : String)
  deriving DecidableEq, Repr

def Opening.program : Opening → LoginOp (OpenSession KR × AuthResult)
  | .login username password => newSession K username password
  | .loginWithHV username password hvToken hvType =>
    newSessionWithHV K username password hvToken hvType
  | .resume creds account => resumeSession K creds account

end Programs

section Revocation

variable {KR σ α β : Type} {K : KeyLibrary KR}

def IsRead : LoginQuery → Prop
  | .getUser | .getSalts | .getAddresses | .listShares => True
  | _ => False

/-- The program only reads the account. -/
def Reads (p : LoginOp α) : Prop :=
  p.wp (promise IsRead fun _ _ => True) (fun _ _ => True) (fun _ _ => True) ()

theorem Reads.bind {p : LoginOp α} {f : α → LoginOp β} (hp : Reads p) (hf : ∀ a, Reads (f a)) :
    Reads (p >>= f) := wp_bind hp fun a _ _ => hf a

theorem reads_pure (a : α) : Reads (pure a) := trivial

theorem reads_check (r : Except ApiError α) : Reads (check r) := by
  cases r <;> exact trivial

theorem reads_call {q : LoginQuery} {f : LoginAnswer q → LoginOp α} (hq : IsRead q)
    (hf : ∀ r, Reads (f r)) : Reads (call q >>= f) := wp_promised hq fun r _ => hf r

theorem reads_unlockWithSaltedPassphrase (saltedPass : Bytes) :
    Reads (unlockWithSaltedPassphrase K saltedPass) := by
  apply Reads.bind (reads_call (q := .getUser) trivial fun r => reads_check r)
  intro user
  apply Reads.bind (reads_call (q := .getAddresses) trivial fun r => reads_check r)
  intro addrs
  split
  · exact trivial
  · split <;> exact trivial

theorem reads_unlockPrimaryAddress (password : Bytes) :
    Reads (unlockPrimaryAddress K password) := by
  apply Reads.bind (reads_call (q := .getUser) trivial fun r => reads_check r)
  intro user
  apply Reads.bind (reads_call (q := .getSalts) trivial fun r => reads_check r)
  intro salts
  split
  · exact trivial
  · split
    · exact trivial
    · exact (reads_unlockWithSaltedPassphrase _).bind fun _ => trivial

theorem reads_findMainShare : Reads findMainShare := by
  apply Reads.bind (reads_call (q := .listShares) trivial fun r => reads_check r)
  intro shares
  split <;> exact trivial

variable {h : Handler σ LoginQuery LoginAnswer} {s : σ}

theorem Reads.notMem {p : LoginOp α} (hp : Reads p) : .authDelete ∉ p.trace h s :=
  fun hq => mem_trace_of_wp hp (fun _ _ => trivial) hq

/-- What is asked of a client, with how it ends: a session is not revoked, an error is followed by
one revocation, a crash by none. -/
inductive Closes {α : Type} : List LoginQuery → Except OpenError α → Prop
  | opened {qs : List LoginQuery} (a : α) (hqs : .authDelete ∉ qs) : Closes qs (.ok a)
  | crashed {qs : List LoginQuery} (hqs : .authDelete ∉ qs) :
      Closes qs (.error .indexOutOfRange)
  | revoked {qs : List LoginQuery} {e : OpenError} (he : e ≠ .indexOutOfRange)
      (hqs : .authDelete ∉ qs) : Closes (qs ++ [.authDelete]) (.error e)

theorem revoke_of_ne {e : OpenError} (he : e ≠ .indexOutOfRange) :
    (revoke e : LoginOp α) = call .authDelete >>= fun _ => .fail e := by
  cases e <;> first | rfl | exact absurd rfl he

theorem Reads.closes {p : LoginOp α} (hp : Reads p) :
    Closes ((p.recover revoke).trace h s) ((p.recover revoke).run h s).result := by
  have hnot : .authDelete ∉ p.trace h s := hp.notMem
  rw [trace_recover, run_recover]
  rcases p.run h s with ⟨e | a, s'⟩
  · by_cases he : e = .indexOutOfRange
    · subst he
      change Closes (p.trace h s ++ []) (.error .indexOutOfRange)
      rw [List.append_nil]
      exact .crashed hnot
    · simp only [Outcome.recover_error, revoke_of_ne he]
      exact .revoked he hnot
  · simpa using Closes.opened a hnot

/-- Nothing that goes on after an error asks more. -/
theorem Closes.bind {p : LoginOp α} {f : α → LoginOp β}
    (hp : Closes (p.trace h s) (p.run h s).result)
    (hf : ∀ a s', Closes ((f a).trace h s') ((f a).run h s').result) :
    Closes ((p >>= f).trace h s) ((p >>= f).run h s).result := by
  rw [trace_bind, run_bind]
  generalize p.trace h s = qs at hp ⊢
  rcases hr : p.run h s with ⟨e | a, s'⟩
  · rw [hr] at hp
    simp only [List.append_nil, Outcome.andThen_error]
    cases hp with
    | crashed hqs => exact .crashed hqs
    | revoked he hqs => exact .revoked he hqs
  · rw [hr] at hp
    have hqs : .authDelete ∉ qs := by
      cases hp with
      | opened _ hqs => exact hqs
    have hmem : ∀ qs', .authDelete ∉ qs' → .authDelete ∉ qs ++ qs' := by
      intro qs' hqs' hm
      exact (List.mem_append.mp hm).elim hqs hqs'
    have hnext := hf a s'
    simp only [Outcome.andThen_ok]
    generalize (f a).trace h s' = qs' at hnext ⊢
    generalize ((f a).run h s').result = r at hnext ⊢
    cases hnext with
    | opened b hqs' => exact .opened b (hmem _ hqs')
    | crashed hqs' => exact .crashed (hmem _ hqs')
    | revoked he hqs' =>
      rw [← List.append_assoc]
      exact .revoked he (hmem _ hqs')

theorem closes_withClient {unlocking : LoginOp (KR × String × Bytes)} (hu : Reads unlocking)
    (auth : Auth) (account : String) :
    Closes ((withClient unlocking auth account).trace h s)
      ((withClient unlocking auth account).run h s).result := by
  apply hu.closes.bind
  intro r s'
  apply reads_findMainShare.closes.bind
  intro share s''
  exact .opened _ (by simp [Prog.trace, Pure.pure])

/-- The call was answered with a client. -/
def Granted : (q : LoginQuery) → LoginAnswer q → Prop
  | .newClientWithLogin _ _, .ok _ => True
  | .newClientWithLoginWithHVToken _ _ _, .ok _ => True
  | .newClientWithRefresh _ _, .ok _ => True
  | _, _ => False

/-- A program that goes on only if it is given a client. -/
theorem revokes_of_granted {q : LoginQuery} (hq : q.MakesClient) {f : LoginAnswer q → LoginOp α}
    (hgranted : ∀ r s', Granted q r → Closes ((f r).trace h s') ((f r).run h s').result)
    (hrefused : ∀ r, ¬Granted q r → ∃ e, f r = .fail e) :
    ∃ q' rest, (call q >>= f).trace h s = q' :: rest ∧ q'.MakesClient ∧
      (Granted q' (h q' s).1 → Closes rest ((call q >>= f).run h s).result) ∧
      (¬Granted q' (h q' s).1 → rest = [] ∧ ∃ e, ((call q >>= f).run h s).result = .error e) := by
  refine ⟨q, (f (h q s).1).trace h (h q s).2, rfl, hq, hgranted _ _, ?_⟩
  intro hn
  obtain ⟨e, he⟩ := hrefused _ hn
  change _ ∧ ∃ e, ((f (h q s).1).run h (h q s).2).result = .error e
  rw [he]
  exact ⟨rfl, e, rfl⟩

/-- Whatever the API answers, an opening asks for a client first. Without one it fails at once; with
one, every failure but the crash of a user without keys is followed by exactly one revocation, the
last call it makes, and a session that is handed out was not revoked. -/
theorem opening_revokes (K : KeyLibrary KR) (o : Opening) (h : Handler σ LoginQuery LoginAnswer)
    (s : σ) : ∃ q rest, (o.program K).trace h s = q :: rest ∧ q.MakesClient ∧
      (Granted q (h q s).1 → Closes rest ((o.program K).run h s).result) ∧
      (¬Granted q (h q s).1 → rest = [] ∧ ∃ e, ((o.program K).run h s).result = .error e) := by
  have hprimary := reads_unlockPrimaryAddress (K := K)
  cases o with
  | login username password =>
    apply revokes_of_granted (q := .newClientWithLogin username password) trivial
    · rintro (e | auth) s' hg
      · cases hg
      · exact closes_withClient (hprimary password) auth username
    · rintro (e | auth) hn
      · exact ⟨_, rfl⟩
      · exact absurd trivial hn
  | loginWithHV username password hvToken hvType =>
    apply revokes_of_granted
      (q := .newClientWithLoginWithHVToken username password ⟨[hvType], hvToken⟩) trivial
    · rintro (e | auth) s' hg
      · cases hg
      · exact closes_withClient (hprimary password) auth username
    · rintro (e | auth) hn
      · exact ⟨_, rfl⟩
      · exact absurd trivial hn
  | resume creds account =>
    apply revokes_of_granted (q := .newClientWithRefresh creds.uid creds.refreshToken) trivial
    · rintro (e | auth) s' hg
      · cases hg
      · refine closes_withClient ?_ auth _
        exact (reads_unlockWithSaltedPassphrase creds.saltedPassphrase).bind fun _ =>
          reads_pure _
    · rintro (e | auth) hn
      · exact ⟨_, rfl⟩
      · exact absurd trivial hn

end Revocation

end ProtonDrive.SessionOpening
