import ProtonDrive.CacheTransparency

/-!
# Reads while online

On an unchanging server that answers every call a session that mirrors the tree reads exactly
what the plain walk finds: an error means that the walk finds nothing either, and it is never an
offline error.
-/

namespace ProtonDrive.OnlineReads
open SlashPaths KeyedMaps FallibleSteps DriveApi DriveSession RemoteTree CacheTransparency

variable {KR : Type} {C : Crypto KR} {t : Tree} {w : World} {s s' : Session KR}

/-- A failure of an operation that should answer `truth`: there is nothing to answer. -/
structure Missing {α : Type} (e : GoError) (truth : Option α) : Prop where
  online : isOfflineError e = false
  none : truth = none

theorem Missing.imp {α β : Type} {e : GoError} {a : Option α} {b : Option β} (h : Missing e a)
    (hab : a = Option.none → b = Option.none) : Missing e b :=
  ⟨h.online, hab h.none⟩

/-- On a server that answers every call, this is all an error can mean. -/
theorem missing_of_verdict {α : Type} {e : GoError} {truth : Option α} (hr : w.Reliable)
    (h : Verdict w e truth) : Missing e truth := ⟨(h.online hr).1, (h.online hr).2⟩

theorem callAPI_online (hr : w.Reliable) (hw : w.Serves t.toServer) {α : Type} (s : Session KR)
    (answer : Server → Option α) :
    (s.callAPI w answer).Sat (fun a s' => s' = s.tick ∧ answer t.toServer = some a)
      (fun e s' => s' = s.tick ∧ Missing e (answer t.toServer)) :=
  (callAPI_spec hw s answer).mono (fun _ _ ha => ⟨ha.1, ha.2.1⟩)
    (fun _ _ he => ⟨he.1, missing_of_verdict hr he.2⟩)

theorem resolvePath_online (hr : w.Reliable) (hw : w.Serves t.toServer) (h : Mirrors C t s)
    (p : Path) :
    (s.resolvePath C w p).Sat (fun n s' => Good C t s s' ∧ t.locate C p = some n)
      (fun e s' => Good C t s s' ∧ Missing e (t.locate C p)) :=
  (resolvePath_spec hw h p).mono (fun _ _ ha => ha)
    (fun _ _ he => ⟨he.1, missing_of_verdict hr he.2⟩)

theorem listChildren_online (hr : w.Reliable) (hw : w.Serves t.toServer) (h : Mirrors C t s)
    (p : Path) :
    (s.listChildren C w p).Sat (fun r s' => Good C t s s' ∧ t.listOf C p = some r)
      (fun e s' => Good C t s s' ∧ Missing e (t.listOf C p)) :=
  (listChildren_spec hw h p).mono (fun _ _ ha => ⟨ha.1, ha.2.1⟩)
    (fun _ _ he => ⟨he.1, missing_of_verdict hr he.2.1⟩)

theorem stat_online (hr : w.Reliable) (hw : w.Serves t.toServer) (h : Mirrors C t s) (p : Path) :
    (s.stat C w p).Sat (fun r s' => Good C t s s' ∧ t.statOf C p = some r)
      (fun e s' => Good C t s s' ∧ Missing e (t.statOf C p)) :=
  (stat_spec hw h p).mono (fun _ _ ha => ⟨ha.1, ha.2.1⟩)
    (fun _ _ he => ⟨he.1, missing_of_verdict hr he.2.1⟩)

section Results

variable {α β : Type}

/-- An operation that answers the truth, or fails when there is none, has the truth as result. -/
theorem result_toOption {o : Step KR α} {truth : Option α}
    (h : o.Sat (fun a s' => Good C t s s' ∧ truth = some a)
      (fun e s' => Good C t s s' ∧ Missing e truth)) : o.result.toOption = truth := by
  rcases o with ⟨e | a, s₁⟩
  · exact h.2.none.symm
  · exact h.2.symm

end Results

theorem resolvePath_toOption (hr : w.Reliable) (hw : w.Serves t.toServer) (h : Mirrors C t s)
    (p : Path) : (s.resolvePath C w p).result.toOption = t.locate C p :=
  result_toOption (resolvePath_online hr hw h p)

theorem listChildren_toOption (hr : w.Reliable) (hw : w.Serves t.toServer) (h : Mirrors C t s)
    (p : Path) : (s.listChildren C w p).result.toOption = t.listOf C p :=
  result_toOption (listChildren_online hr hw h p)

theorem stat_toOption (hr : w.Reliable) (hw : w.Serves t.toServer) (h : Mirrors C t s)
    (p : Path) : (s.stat C w p).result.toOption = t.statOf C p :=
  result_toOption (stat_online hr hw h p)

end ProtonDrive.OnlineReads
