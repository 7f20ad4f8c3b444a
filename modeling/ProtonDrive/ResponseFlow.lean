import ProtonDrive.SessionPrograms

/-!
# Where the values of a response go

A provenance says, for the phases of some contract, which responses a listing or a record may
be from: what may be stored under a path, and what the metadata cache may answer for it. Under
every lawful provenance the reads of the session only store what they may, and what they return
is what the cache may answer.
-/

namespace ProtonDrive.ResponseFlow
open SlashPaths KeyedMaps FallibleSteps DriveApi Programs Programs.Prog SessionPrograms
open DriveSession hiding exec Answer

variable {KR τ B : Type}

/-- `receives b x b'` is the reception of the response `x`, `invalidates` what an invalidation
does; `errors` are the errors an API call may return. -/
structure Provenance (B τ : Type) where
  mayList : B → Path → Tagged τ (List Link) → Prop
  lists : B → Path → Tagged τ (List Link) → Prop
  mayStat : B → Path → Tagged τ Link → Prop
  stats : B → Path → Tagged τ Link → Prop
  staleLists : B → Path → Tagged τ (List Link) → Prop
  staleStats : B → Path → Tagged τ Link → Prop
  receives : B → Tagged τ (List Link) → B → Prop
  mayInvalidate : Prop
  invalidates : B → B → Prop
  errors : GoError → Prop

namespace Provenance

/-- Nothing is stored that may not be stored, and nothing unexpected is answered. -/
def contract (P : Provenance B τ) : Contract B (Query KR τ) Answer where
  ok b
    | .setList p x _ => P.mayList b p x
    | .setStat p x _ => P.mayStat b p x
    | .invalidateMeta _ | .invalidateMetaLink _ => P.mayInvalidate
    | _ => True
  next b
    | .listChildren _, .ok x, b' => P.receives b x b'
    | .getLink _, .ok x, b' => P.receives b ⟨[x.val], x.stamp⟩ b'
    | .getShare, .error e, b' | .listChildren _, .error e, b' | .getLink _, .error e, b' =>
      b' = b ∧ P.errors e
    | .getList p, some r, b' => b' = b ∧ P.lists b p r.1
    | .getListStale p, some r, b' => b' = b ∧ P.staleLists b p r.1
    | .getStat p, some r, b' => b' = b ∧ P.stats b p r.1
    | .getStatStale p, some r, b' => b' = b ∧ P.staleStats b p r.1
    | .invalidateMeta _, _, b' | .invalidateMetaLink _, _, b' => P.invalidates b b'
    | _, _, b' => b' = b

/-- A response may be stored wherever it is from, and what may be stored may be answered. -/
structure Lawful (P : Provenance B τ) : Prop where
  received : ∀ {b x b'}, P.receives b x b' → ∀ p, P.mayList b' p x ∧ P.lists b' p x
  record : ∀ {b x b'}, P.receives b x b' → ∀ p, ∀ l ∈ x.val, P.mayStat b' p ⟨l, x.stamp⟩
  later : ∀ {b x b' p y}, P.receives b x b' → P.mayStat b p y → P.mayStat b' p y
  stats : ∀ {b p y}, P.mayStat b p y → P.stats b p y
  staleLists : ∀ {b p x e}, P.errors e → isOfflineError e = true → P.staleLists b p x →
    P.lists b p x
  staleStats : ∀ {b p y e}, P.errors e → isOfflineError e = true → P.staleStats b p y →
    P.stats b p y
  crypto : P.errors .crypto
  notFound : ∀ p, P.errors (.notFound p)

end Provenance

variable {P : Provenance B τ} {C : Crypto KR} {b : B} {ε α : Type}

section Rules

variable {post : α → B → Prop} {err : GoError → B → Prop}

theorem wp_ask {q : Query KR τ} {f : Answer q → Op KR τ ε α} {err : ε → B → Prop}
    (hok : P.contract.ok b q)
    (h : ∀ r b', P.contract.next b q r b' → (f r).wp P.contract post err b') :
    (ask q >>= f).wp P.contract post err b := ⟨hok, h⟩

/-- A query that neither stores nor receives anything leaves the phase as it is. -/
theorem wp_ask_same {q : Query KR τ} {f : Answer q → Op KR τ ε α} {err : ε → B → Prop}
    (hok : P.contract.ok b q) (hn : ∀ r b', P.contract.next b q r b' → b' = b)
    (h : ∀ r, (f r).wp P.contract post err b) :
    (ask q >>= f).wp P.contract post err b :=
  ⟨hok, fun r b' hr => by rw [hn r b' hr]; exact h r⟩

theorem wp_children (id : LinkID) :
    (ask (.listChildren id) >>= check : Op KR τ GoError _).wp P.contract
      (fun x b' => P.receives b x b') (fun e _ => P.errors e) b := by
  apply wp_ask (q := .listChildren id) trivial
  intro r b' hn
  rcases r with e | x
  · exact hn.2
  · exact hn

theorem wp_link (id : LinkID) :
    (ask (.getLink id) >>= check : Op KR τ GoError _).wp P.contract
      (fun x b' => P.receives b ⟨[x.val], x.stamp⟩ b') (fun e _ => P.errors e) b := by
  apply wp_ask (q := .getLink id) trivial
  intro r b' hn
  rcases r with e | x
  · exact hn.2
  · exact hn

end Rules

section Reads

variable (hP : P.Lawful)
include hP

theorem wp_shareKeyRing :
    (shareKeyRing C : Op KR τ GoError KR).wp P.contract (fun _ b' => b' = b)
      (fun e _ => P.errors e) b := by
  rw [shareKeyRing]
  apply wp_ask_same (q := .shareKR) trivial (fun _ _ h => h)
  intro r
  cases r with
  | some kr => exact rfl
  | none =>
    have hshare : (ask .getShare >>= check : Op KR τ GoError Share).wp P.contract
        (fun _ b' => b' = b) (fun e _ => P.errors e) b := by
      apply wp_ask (q := .getShare) trivial
      intro r b' hn
      rcases r with e | share
      · exact hn.2
      · exact hn
    apply wp_bind hshare
    intro share b' hb
    subst hb
    cases C.shareKeyRing share with
    | none => exact hP.crypto
    | some kr => exact wp_ask_same (q := .setShareKR kr) trivial (fun _ _ h => h) fun _ => rfl

/-- What may be stored before may be stored after it. -/
def Later (P : Provenance B τ) (b b' : B) : Prop := ∀ p y, P.mayStat b p y → P.mayStat b' p y

theorem wp_rootNodeKeyRing :
    (rootNodeKeyRing C : Op KR τ GoError KR).wp P.contract (fun _ b' => Later P b b')
      (fun e _ => P.errors e) b := by
  rw [rootNodeKeyRing]
  apply wp_ask_same (q := .rootID) trivial (fun _ _ h => h)
  intro rootID
  apply wp_ask_same (q := .nodeKR rootID) trivial (fun _ _ h => h)
  intro r
  cases r with
  | some kr => exact fun _ _ h => h
  | none =>
    apply wp_bind (wp_shareKeyRing hP)
    intro shareKR b₁ hb
    subst hb
    apply wp_ask_same (q := .rootID) trivial (fun _ _ h => h)
    intro rootID
    apply wp_bind (wp_link rootID)
    intro rootLink b₂ hr
    cases C.getKeyRing rootLink.val shareKR with
    | none => exact hP.crypto
    | some kr =>
      apply wp_ask_same (q := .rootID) trivial (fun _ _ h => h)
      intro rootID
      apply wp_ask_same (q := .setNodeKR rootID kr) trivial (fun _ _ h => h)
      exact fun _ _ _ hy => hP.later hr hy

theorem wp_walkParts (p : Path) (parts : List Path) (linkID : LinkID) (kr : KR)
    (currentPath : Path) :
    (walkParts C p parts linkID kr currentPath : Op KR τ GoError _).wp P.contract
      (fun _ _ => True) (fun e _ => P.errors e) b := by
  induction parts generalizing linkID kr currentPath b with
  | nil => exact trivial
  | cons part parts ih =>
    rw [walkParts]
    apply wp_bind (wp_children linkID)
    intro children b₁ hr
    apply wp_ask_same (q := .setList currentPath children kr) (hP.received hr _).1
      (fun _ _ h => h)
    intro _
    cases findChild C kr part children.val with
    | none => exact hP.notFound p
    | some child =>
      dsimp only
      cases C.getKeyRing child kr with
      | none => exact hP.crypto
      | some childKR =>
        apply wp_ask_same (q := .setNodeKR child.linkID childKR) trivial (fun _ _ h => h)
        intro _
        apply wp_ask_same (q := .setLinkPath child.linkID (extendPath currentPath part)) trivial
          (fun _ _ h => h)
        intro _
        apply wp_ask_same (q := .setPathLink (extendPath currentPath part) child.linkID) trivial
          (fun _ _ h => h)
        intro _
        exact ih ..

theorem wp_resolvePath (p : Path) :
    (resolvePath C p : Op KR τ GoError _).wp P.contract (fun _ _ => True)
      (fun e _ => P.errors e) b := by
  rw [resolvePath]
  have hres : (resolved (absolute p) : Op KR τ GoError _).wp P.contract (fun _ _ => True)
      (fun e _ => P.errors e) b := by
    rw [resolved]
    apply wp_ask_same (q := .pathLink (absolute p)) trivial (fun _ _ h => h)
    intro r
    cases r with
    | none => exact trivial
    | some id => exact wp_ask_same (q := .nodeKR id) trivial (fun _ _ h => h) fun _ => trivial
  apply wp_bind hres
  intro r b₁ _
  cases r with
  | some node => exact trivial
  | none =>
    apply wp_ask_same (q := .rootID) trivial (fun _ _ h => h)
    intro rootID
    apply wp_ask_same (q := .setLinkPath rootID ['/']) trivial (fun _ _ h => h)
    intro _
    apply wp_bind (wp_rootNodeKeyRing hP)
    intro kr b₂ _
    apply wp_ask_same (q := .rootID) trivial (fun _ _ h => h)
    intro rootID
    apply wp_ask_same (q := .setPathLink ['/'] rootID) trivial (fun _ _ h => h)
    intro _
    apply wp_ask_same (q := .rootID) trivial (fun _ _ h => h)
    intro rootID
    exact wp_walkParts hP ..

theorem wp_listChildren (p : Path) :
    (listChildren C p : Op KR τ GoError _).wp P.contract (fun r b' => P.lists b' p r.1)
      (fun e _ => P.errors e) b := by
  rw [listChildren]
  apply wp_ask (q := .getList p) trivial
  intro r b₁ hr
  cases r with
  | some r =>
    obtain ⟨rfl, hlist⟩ := hr
    exact hlist
  | none =>
    apply wp_recover
    · apply wp_bind (wp_resolvePath hP p)
      intro node b₂ _
      apply wp_bind (wp_children node.1)
      intro links b₃ hl
      apply wp_ask_same (q := .setList p links node.2) (hP.received hl p).1 (fun _ _ h => h)
      exact fun _ => (hP.received hl p).2
    · intro e b₂ he
      rw [staleList]
      split_ifs with ho
      · apply wp_ask (q := .getListStale p) trivial
        intro r b₃ hr
        cases r with
        | some r =>
          obtain ⟨rfl, hs⟩ := hr
          exact hP.staleLists he ho hs
        | none => exact he
      · exact he

/-- The root is fetched by itself; any other record comes out of the listing of its parent. -/
theorem wp_statUncached {p : Path}
    (hp : p ≠ ['/'] → ∀ b x, P.lists b (dir p) x → ∀ l ∈ x.val, P.mayStat b p ⟨l, x.stamp⟩) :
    (statUncached C p : Op KR τ GoError _).wp P.contract (fun r b' => P.mayStat b' p r.1)
      (fun e _ => P.errors e) b := by
  rw [statUncached]
  split_ifs with hroot
  · apply wp_ask_same (q := .rootID) trivial (fun _ _ h => h)
    intro rootID
    apply wp_bind (wp_link rootID)
    intro link b₁ hl
    apply wp_bind (wp_rootNodeKeyRing hP)
    intro kr b₂ hlater
    exact hlater p link (hP.record hl p link.val List.mem_cons_self)
  · rw [parentKRFor]
    have hparent : (resolvePath C (dir (absolute p)) >>= fun n => pure n.2 :
        Op KR τ GoError KR).wp P.contract (fun _ _ => True) (fun e _ => P.errors e) b :=
      wp_bind (wp_resolvePath hP _) fun _ _ _ => trivial
    apply wp_bind hparent
    intro parentKR b₁ _
    apply wp_bind (wp_listChildren hP (dir p))
    intro r b₂ hr
    cases hf : findChild C parentKR (base p) r.1.val with
    | none => exact hP.notFound p
    | some l => exact hp hroot b₂ r.1 hr l (findChild_some hf).1

theorem wp_stat {p : Path}
    (hp : absolute p ≠ ['/'] → ∀ b x, P.lists b (dir (absolute p)) x → ∀ l ∈ x.val,
      P.mayStat b (absolute p) ⟨l, x.stamp⟩) :
    (stat C p : Op KR τ GoError _).wp P.contract (fun r b' => P.stats b' (absolute p) r.1)
      (fun e _ => P.errors e) b := by
  rw [stat]
  apply wp_ask (q := .getStat (absolute p)) trivial
  intro r b₁ hr
  cases r with
  | some r =>
    obtain ⟨rfl, hstat⟩ := hr
    exact hstat
  | none =>
    apply wp_recover
    · apply wp_bind (wp_statUncached hP hp)
      intro r b₂ hr
      apply wp_ask_same (q := .setStat (absolute p) r.1 r.2) hr (fun _ _ h => h)
      exact fun _ => hP.stats hr
    · intro e b₂ he
      rw [staleStat]
      split_ifs with ho
      · apply wp_ask (q := .getStatStale (absolute p)) trivial
        intro r b₃ hr
        cases r with
        | some r =>
          obtain ⟨rfl, hs⟩ := hr
          exact hP.staleStats he ho hs
        | none => exact he
      · exact he

end Reads

end ProtonDrive.ResponseFlow
