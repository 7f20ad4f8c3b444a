import ProtonDrive.SharedPrograms
import ProtonDrive.StaleFills
import ProtonDrive.CacheTransparency

/-!
# Concurrent calls on an unchanging server

The calls of any number of connections and the `handle` of the event poller, interleaved query
by query, on a server that holds one tree. Between two queries the poller may also be in the
middle of `invalidateAll`, and file reads may change the block cache. Every query stores a fact
of the tree as long as the answers it relies on are facts of the tree, so that is the contract
that all of them share.
-/

namespace ProtonDrive.ConcurrentReads
open SlashPaths KeyedMaps FallibleSteps DriveApi Programs Programs.Prog SessionPrograms
  SharedPrograms RemoteTree CacheTransparency PollerPrograms
open DriveSession hiding exec Answer
open EventPoller (DriveEvent EventType)
open StaleFills (Reader)

variable {KR : Type}

section Facts

/-- Wherever the walk finds the link, this is its path. -/
def Recorded (C : Crypto KR) (t : Tree) (id : LinkID) (p : Path) : Prop :=
  ∀ q kr, t.locate C q = some (id, kr) → absolute q = p

/-- The name that a record tells: its own, else that of the link that is fetched for it. -/
def toldName (C : Crypto KR) (t : Tree) (l : Link) (kr : KR) : Option Path :=
  (C.getName l kr).or ((t.link l.linkID).bind fun full => C.getName full kr)

/-- The folder and the name of a link as the tree has them, if the tree has the link. -/
structure Describes (C : Crypto KR) (t : Tree) (l : Link) : Prop where
  not_root : l.linkID ≠ t.rootID
  parent : ∀ {d ls l'}, t.children d = some ls → l' ∈ ls → l'.linkID = l.linkID →
    l'.parentLinkID = l.parentLinkID
  name : ∀ {d ls l' kr n e}, t.children d = some ls → l' ∈ ls → l'.linkID = l.linkID →
    toldName C t l kr = some n → C.getName l' kr = some e → e = n

variable {C : Crypto KR} {t : Tree} {p d name : Path} {id : LinkID} {kr : KR} {l : Link}

theorem toldName_of_getName (h : C.getName l kr = some name) : toldName C t l kr = some name := by
  rw [toldName, h, Option.some_or]

theorem describes_of_mem {ls : List Link} (hls : t.children id = some ls) (hl : l ∈ ls) :
    Describes C t l := by
  refine ⟨t.root_not_child hls hl, ?_, ?_⟩
  · intro d ls' l' hls' hl' hid
    rw [t.link_unique hls' hl' hls hl hid]
  · intro d ls' l' kr n e hls' hl' hid hn he
    rw [t.link_unique hls' hl' hls hl hid] at he
    rw [toldName_of_getName he] at hn
    exact Option.some.inj hn

theorem recorded_of_locate (h : t.locate C p = some (id, kr)) : Recorded C t id (absolute p) :=
  fun _ _ hq => (Tree.locate_unique hq h).2

theorem recorded_root : Recorded C t t.rootID ['/'] := by
  intro q kr hq
  cases hk : t.rootKR C with
  | none => simp [Tree.locate, hk] at hq
  | some k =>
    have hroot : t.locate C ['/'] = some (t.rootID, k) := by
      rw [Tree.locate_root, hk]
      rfl
    exact recorded_of_locate hroot q kr hq

/-- A located link that is not the root was entered from a folder that is located too. -/
theorem locate_parent {q : Path} (h : t.locate C q = some (id, kr)) (hid : id ≠ t.rootID) :
    ∃ es e n ls l, (∀ a ∈ es, IsComponent a) ∧ absolute q = render (es ++ [e]) ∧
      t.locate C (render es) = some n ∧ t.children n.1 = some ls ∧ l ∈ ls ∧
        C.getName l n.2 = some e ∧ l.linkID = id := by
  have hcomp : ∀ a ∈ splitPath q, IsComponent a := by
    rw [splitPath_eq]
    exact elements_components q
  have habs : absolute q = render (splitPath q) := by rw [splitPath_eq, absolute_eq_render]
  obtain ⟨k, hk, hd⟩ := Option.bind_eq_some_iff.mp h
  rcases (splitPath q).eq_nil_or_concat' with hnil | ⟨es, e, hes⟩
  · rw [hnil] at hd
    cases hd
    exact absurd rfl hid
  · rw [hes] at hd hcomp habs
    rw [Tree.descend_append] at hd
    obtain ⟨n, hn, hd⟩ := Option.bind_eq_some_iff.mp hd
    obtain ⟨m, hm, hd⟩ := Option.bind_eq_some_iff.mp hd
    cases hd
    obtain ⟨ls, l, hls, hl, hname, -, hlid⟩ := Tree.enter_eq_some hm
    have hcomp' : ∀ a ∈ es, IsComponent a := fun a ha => hcomp a (List.mem_append_left _ ha)
    refine ⟨es, e, n, ls, l, hcomp', habs, ?_, hls, hl, hname, hlid⟩
    rw [locate_render hcomp', hk, Option.bind_some, hn]

/-- Below a located folder, a link is recorded under the name that its record tells. -/
theorem recorded_child (hl : Describes C t l) (hd : t.locate C d = some (l.parentLinkID, kr))
    (habs : absolute d = d) (hname : toldName C t l kr = some name) :
    Recorded C t l.linkID (child d name) := by
  intro q k hq
  obtain ⟨es, e, n, ls, l', hes, habsq, hn, hls, hl', he, hid⟩ := locate_parent hq hl.not_root
  rw [← hl.parent hls hl' hid, t.parent_of_child hls hl'] at hd
  have hn' : t.locate C (render es) = some (n.1, n.2) := hn
  obtain ⟨hkr, hdir⟩ := Tree.locate_unique hd hn'
  rw [habs, absolute_render hes] at hdir
  rw [hkr] at hname
  rw [habsq, hdir, child_render hes, hl.name hls hl' hid hname he]

/-- A folder that is recorded at a path and has a keyring is located there. -/
theorem locate_recorded {q : Path} (hr : Recorded C t id d) (hq : t.locate C q = some (id, kr)) :
    absolute d = d ∧ t.locate C d = some (id, kr) := by
  have habs := hr q kr hq
  refine ⟨?_, ?_⟩
  · rw [← habs, absolute_absolute]
  · rw [← habs, Tree.locate_absolute, hq]

end Facts

section Contract

variable (C : Crypto KR) (t : Tree)

/-- Only facts of the tree are stored. -/
def storable : Query KR ℕ → Prop
  | .setStat p x kr => t.statOf C p = some (x.val, kr)
  | .setList p x kr => t.listOf C p = some (x.val, kr)
  | .setShareKR kr => C.shareKeyRing t.share = some kr
  | .setNodeKR id kr => ∃ p, t.locate C p = some (id, kr)
  | .setPathLink p id => ∃ kr, t.locate C p = some (id, kr)
  | .setLinkPath id p => Recorded C t id p
  | _ => True

/-- Answers are facts of the tree, and only API calls fail. -/
def answered : (q : Query KR ℕ) → SessionPrograms.Answer q → Prop
  | .getShare, .ok share => share = t.share
  | .getLink id, .ok x => t.link id = some x.val
  | .listChildren id, .ok x => t.children id = some x.val
  | .getShare, .error e | .getLink _, .error e | .listChildren _, .error e => ∃ a, e = .api a
  | .getStat p, some r | .getStatStale p, some r => t.statOf C p = some (r.1.val, r.2)
  | .getList p, some r | .getListStale p, some r => t.listOf C p = some (r.1.val, r.2)
  | .rootID, id => id = t.rootID
  | .shareKR, some kr => C.shareKeyRing t.share = some kr
  | .nodeKR id, some kr => ∃ p, t.locate C p = some (id, kr)
  | .linkPath id, p => p ≠ [] → Recorded C t id p
  | .pathLink p, some id => ∃ kr, t.locate C p = some (id, kr)
  | _, _ => True

abbrev facts : Contract Unit (Query KR ℕ) SessionPrograms.Answer :=
  promise (storable C t) (answered C t)

/-- The program ends with a part of the truth; it says "not found" only if there is none. -/
def Tells {α β : Type} (p : Op KR ℕ GoError α) (v : α → β) (truth : Option β) : Prop :=
  p.wp (facts C t) (fun a _ => truth = some (v a)) (fun e _ => ∀ q, e = .notFound q → truth = none)
    ()

/-- The program keeps to the contract, however it fails; what it returns is as promised. -/
def Gives {α : Type} (p : Op KR ℕ Unit α) (post : α → Prop) : Prop :=
  p.wp (facts C t) (fun a _ => post a) (fun _ _ => True) ()

end Contract

section Rules

variable {C : Crypto KR} {t : Tree} {α β γ δ ε : Type}

theorem Tells.ret {a : α} {v : α → β} {truth : Option β} (h : truth = some (v a)) :
    Tells C t (pure a) v truth := h

theorem Tells.failed {e : GoError} {v : α → β} {truth : Option β}
    (h : ∀ q, e = .notFound q → truth = none) : Tells C t (.fail e) v truth := h

theorem Tells.query {q : Query KR ℕ} {f : SessionPrograms.Answer q → Op KR ℕ GoError α}
    {v : α → β} {truth : Option β} (hok : storable C t q)
    (h : ∀ r, answered C t q r → Tells C t (f r) v truth) : Tells C t (ask q >>= f) v truth :=
  wp_promised hok h

theorem Tells.bind {p : Op KR ℕ GoError γ} {f : γ → Op KR ℕ GoError α} {u : γ → δ} {v : α → β}
    {part : Option δ} {truth : Option β} (hp : Tells C t p u part)
    (hmiss : part = none → truth = none)
    (hf : ∀ a, part = some (u a) → Tells C t (f a) v truth) : Tells C t (p >>= f) v truth := by
  have hp' : p.wp (facts C t) (fun a _ => part = some (u a))
      (fun e _ => ∀ q, e = .notFound q → truth = none) () :=
    wp_mono hp (fun _ _ ha => ha) fun _ _ he q hq => hmiss (he q hq)
  exact wp_bind hp' fun a _ ha => hf a ha

theorem Tells.recover {p : Op KR ℕ GoError α} {g : GoError → Op KR ℕ GoError α} {v : α → β}
    {truth : Option β} (hp : Tells C t p v truth)
    (hg : ∀ e, (∀ q, e = .notFound q → truth = none) → Tells C t (g e) v truth) :
    Tells C t (p.recover g) v truth :=
  wp_recover hp fun e _ he => hg e he

theorem Gives.ret {a : α} {post : α → Prop} (h : post a) : Gives C t (pure a) post := h

theorem Gives.failed {post : α → Prop} : Gives C t (.fail ()) post := trivial

theorem Gives.query {q : Query KR ℕ} {f : SessionPrograms.Answer q → Op KR ℕ Unit α}
    {post : α → Prop} (hok : storable C t q) (h : ∀ r, answered C t q r → Gives C t (f r) post) :
    Gives C t (ask q >>= f) post := wp_promised hok h

theorem Gives.bind {p : Op KR ℕ Unit γ} {f : γ → Op KR ℕ Unit α} {mid : γ → Prop} {post : α → Prop}
    (hp : Gives C t p mid) (hf : ∀ a, mid a → Gives C t (f a) post) : Gives C t (p >>= f) post :=
  wp_bind hp fun a _ ha => hf a ha

theorem Gives.recover {p : Op KR ℕ Unit α} {g : Unit → Op KR ℕ Unit α} {post : α → Prop}
    (hp : Gives C t p post) (hg : Gives C t (g ()) post) : Gives C t (p.recover g) post :=
  wp_recover hp fun _ _ _ => hg

end Rules

section Reads

variable {C : Crypto KR} {t : Tree}

theorem tells_crypto {α β : Type} {v : α → β} {truth : Option β} :
    Tells C t (.fail .crypto : Op KR ℕ GoError α) v truth := Tells.failed fun _ h => by cases h

theorem tells_api {α β : Type} {v : α → β} {truth : Option β} {e : GoError}
    (h : ∃ a, e = .api a) : Tells C t (.fail e) v truth := by
  obtain ⟨a, rfl⟩ := h
  exact Tells.failed fun _ h => by cases h

theorem tells_share :
    Tells C t (ask .getShare >>= check) id (some t.share) := by
  apply Tells.query (q := .getShare) trivial
  intro r hr
  rcases r with e | share
  · exact tells_api hr
  · exact Tells.ret (congrArg some hr.symm)

theorem tells_link (id : LinkID) :
    Tells C t (ask (.getLink id) >>= check) Tagged.val (t.link id) := by
  apply Tells.query (q := .getLink id) trivial
  intro r hr
  rcases r with e | x
  · exact tells_api hr
  · exact Tells.ret hr

theorem tells_children (id : LinkID) :
    Tells C t (ask (.listChildren id) >>= check) Tagged.val (t.children id) := by
  apply Tells.query (q := .listChildren id) trivial
  intro r hr
  rcases r with e | x
  · exact tells_api hr
  · exact Tells.ret hr

theorem tells_shareKeyRing :
    Tells C t (shareKeyRing C) id (C.shareKeyRing t.share) := by
  rw [shareKeyRing]
  apply Tells.query (q := .shareKR) trivial
  intro r hr
  cases r with
  | some kr => exact Tells.ret hr
  | none =>
    apply tells_share.bind (by intro h; cases h)
    intro share hshare
    cases hshare
    cases hk : C.shareKeyRing t.share with
    | none => exact tells_crypto
    | some kr =>
      apply Tells.query (q := .setShareKR kr) hk
      intro _ _
      exact Tells.ret rfl

/-- The root's own walk ends at the root link, so it carries the keyring of the root. -/
theorem rootKR_of_locate {p : Path} {kr : KR} (h : t.locate C p = some (t.rootID, kr)) :
    t.rootKR C = some kr := by
  cases hk : t.rootKR C with
  | none => simp [Tree.locate, hk] at h
  | some k =>
    have hroot : t.locate C ['/'] = some (t.rootID, k) := by
      rw [Tree.locate_root, hk]
      rfl
    rw [(Tree.locate_unique h hroot).1]

theorem tells_rootNodeKeyRing :
    Tells C t (rootNodeKeyRing C) id (t.rootKR C) := by
  rw [rootNodeKeyRing]
  apply Tells.query (q := .rootID) trivial
  rintro _ rfl
  apply Tells.query (q := .nodeKR t.rootID) trivial
  intro r hr
  cases r with
  | some kr =>
    obtain ⟨p, hp⟩ := hr
    exact Tells.ret (rootKR_of_locate hp)
  | none =>
    apply tells_shareKeyRing.bind fun h => by simp [Tree.rootKR, h]
    intro shareKR hshare
    apply Tells.query (q := .rootID) trivial
    rintro _ rfl
    apply (tells_link t.rootID).bind fun h => by simp [Tree.rootKR, h]
    intro rootLink hlink
    have hopen : t.rootKR C = C.getKeyRing rootLink.val shareKR := by
      rw [Tree.rootKR, hshare, Option.bind_some, hlink, Option.bind_some]
      rfl
    cases hk : C.getKeyRing rootLink.val shareKR with
    | none => exact tells_crypto
    | some kr =>
      have hroot : t.rootKR C = some kr := hopen.trans hk
      have hloc : t.locate C ['/'] = some (t.rootID, kr) := by
        rw [Tree.locate_root, hroot]
        rfl
      apply Tells.query (q := .rootID) trivial
      rintro _ rfl
      apply Tells.query (q := .setNodeKR t.rootID kr) ⟨['/'], hloc⟩
      intro _ _
      exact Tells.ret hroot

/-- The loop, started at a folder found on the way down, finds what the walk finds below it. -/
theorem tells_walkParts (p : Path) (parts es : List Path) (n : Node KR)
    (he : ∀ e ∈ es, IsComponent e) (hparts : ∀ e ∈ parts, IsComponent e)
    (hn : t.locate C (render es) = some n) :
    Tells C t (walkParts C p parts n.1 n.2 (render es)) id (t.descend C n parts) := by
  induction parts generalizing es n with
  | nil => exact Tells.ret rfl
  | cons part parts ih =>
    rw [walkParts]
    apply (tells_children n.1).bind fun h => by simp [Tree.descend, Tree.enter, h]
    intro children hchildren
    have hlist : t.listOf C (render es) = some (children.val, n.2) := by
      simp [Tree.listOf, hn, hchildren]
    apply Tells.query (q := .setList (render es) children n.2) hlist
    intro _ _
    have hd : t.descend C n (part :: parts) = (findChild C n.2 part children.val).bind fun l =>
        (C.getKeyRing l n.2).bind fun kr => t.descend C (l.linkID, kr) parts :=
      descend_cons_of_find hchildren
    cases hf : findChild C n.2 part children.val with
    | none => exact Tells.failed fun q _ => by rw [hd, hf]; rfl
    | some child =>
      dsimp only
      cases hk : C.getKeyRing child n.2 with
      | none => exact tells_crypto
      | some childKR =>
        have hes : ∀ e ∈ es ++ [part], IsComponent e :=
          components_concat he (hparts part List.mem_cons_self)
        have hchild : t.locate C (render (es ++ [part])) = some (child.linkID, childKR) :=
          locate_concat he hes hn hchildren hf hk
        have hrec := recorded_of_locate hchild
        rw [absolute_render hes] at hrec
        have hd' : t.descend C n (part :: parts) = t.descend C (child.linkID, childKR) parts := by
          rw [hd, hf, Option.bind_some, hk]
          rfl
        generalize hpath : extendPath (render es) part = next
        rw [extendPath_render he] at hpath
        subst hpath
        rw [hd']
        apply Tells.query (q := .setNodeKR child.linkID childKR) ⟨_, hchild⟩
        intro _ _
        apply Tells.query (q := .setLinkPath child.linkID (render (es ++ [part]))) hrec
        intro _ _
        apply Tells.query (q := .setPathLink (render (es ++ [part])) child.linkID) ⟨_, hchild⟩
        intro _ _
        exact ih (es ++ [part]) (child.linkID, childKR) hes
          (fun e hm => hparts e (List.mem_cons_of_mem _ hm)) hchild

/-- The fast path answers from two maps that need not have been filled by the same walk. -/
theorem tells_resolved (p : Path) {truth : Option (Node KR)}
    {f : Option (Node KR) → Op KR ℕ GoError (Node KR)}
    (hsome : ∀ n, t.locate C p = some n → Tells C t (f (some n)) id truth)
    (hnone : Tells C t (f none) id truth) : Tells C t (resolved p >>= f) id truth := by
  apply Tells.query (q := .pathLink p) trivial
  intro r hr
  cases r with
  | none => exact hnone
  | some id =>
    obtain ⟨kr, hp⟩ := hr
    apply Tells.query (q := .nodeKR id) trivial
    intro r hr
    cases r with
    | none => exact hnone
    | some kr' =>
      obtain ⟨q, hq⟩ := hr
      exact hsome (id, kr') (by rw [(Tree.locate_unique hq hp).1, hp])

theorem tells_resolvePath (p : Path) : Tells C t (resolvePath C p) id (t.locate C p) := by
  rw [resolvePath]
  apply tells_resolved
  · intro n hn
    exact Tells.ret (by rw [← Tree.locate_absolute, hn]; rfl)
  · apply Tells.query (q := .rootID) trivial
    rintro _ rfl
    apply Tells.query (q := .setLinkPath t.rootID ['/']) recorded_root
    intro _ _
    apply tells_rootNodeKeyRing.bind fun h => by simp [Tree.locate, h]
    intro kr hroot
    have hloc : t.locate C ['/'] = some (t.rootID, kr) := by
      rw [Tree.locate_root, hroot]
      rfl
    have hp : t.locate C p = t.descend C (t.rootID, kr) (splitPath (absolute p)) := by
      rw [← Tree.locate_absolute, Tree.locate, hroot]
      rfl
    have hparts : ∀ e ∈ splitPath (absolute p), IsComponent e := by
      rw [splitPath_eq]
      exact elements_components _
    apply Tells.query (q := .rootID) trivial
    rintro _ rfl
    apply Tells.query (q := .setPathLink ['/'] t.rootID) ⟨kr, hloc⟩
    intro _ _
    apply Tells.query (q := .rootID) trivial
    rintro _ rfl
    rw [hp]
    exact tells_walkParts _ _ [] (t.rootID, kr) (by simp) hparts hloc

theorem tells_staleList {p : Path} {e : GoError}
    (he : ∀ q, e = .notFound q → t.listOf C p = none) :
    Tells C t (staleList p e) listing (t.listOf C p) := by
  rw [staleList]
  split_ifs with ho
  · apply Tells.query (q := .getListStale p) trivial
    intro r hr
    cases r with
    | some r => exact Tells.ret hr
    | none => exact Tells.failed he
  · exact Tells.failed he

theorem tells_listChildren (p : Path) :
    Tells C t (listChildren C p) listing (t.listOf C p) := by
  rw [listChildren]
  apply Tells.query (q := .getList p) trivial
  intro r hr
  cases r with
  | some r => exact Tells.ret hr
  | none =>
    refine Tells.recover ?_ fun e he => tells_staleList he
    apply (tells_resolvePath p).bind fun h => by simp [Tree.listOf, h]
    intro node hnode
    apply (tells_children node.1).bind fun h => by simp [Tree.listOf, hnode, h]
    intro links hlinks
    have hlist : t.listOf C p = some (links.val, node.2) := by simp [Tree.listOf, hnode, hlinks]
    apply Tells.query (q := .setList p links node.2) hlist
    intro _ _
    exact Tells.ret hlist

theorem tells_parentKRFor (p : Path) :
    Tells C t (parentKRFor C p) id ((t.locate C (dir (absolute p))).map Prod.snd) := by
  rw [parentKRFor]
  apply (tells_resolvePath (dir (absolute p))).bind fun h => by simp [h]
  intro n hn
  exact Tells.ret (by rw [hn]; rfl)

theorem tells_statUncached {p : Path} (hp : absolute p = p) :
    Tells C t (statUncached C p) record (t.statOf C p) := by
  rw [statUncached]
  split_ifs with hroot
  · have hst : t.statOf C p =
        (t.link t.rootID).bind fun l => (t.rootKR C).map fun kr => (l, kr) := by
      rw [Tree.statOf, hp, if_pos hroot]
    apply Tells.query (q := .rootID) trivial
    rintro _ rfl
    apply (tells_link t.rootID).bind fun h => by simp [hst, h]
    intro link hlink
    apply tells_rootNodeKeyRing.bind fun h => by simp [hst, h]
    intro kr hkr
    exact Tells.ret (by rw [hst, hlink, hkr]; rfl)
  · have hst : t.statOf C p = (t.listOf C (dir p)).bind fun r =>
        (findChild C r.2 (base p) r.1).map fun l => (l, r.2) := by
      rw [Tree.statOf, hp, if_neg hroot, Tree.childOf]
    have hparent := tells_parentKRFor (C := C) (t := t) p
    rw [hp] at hparent
    apply hparent.bind fun h => by
      rw [Option.map_eq_none_iff] at h
      simp [hst, Tree.listOf, h]
    intro parentKR hloc
    obtain ⟨n, hn, hkr⟩ := Option.map_eq_some_iff.mp hloc
    cases hkr
    apply (tells_listChildren (dir p)).bind fun h => by simp [hst, h]
    intro r hr
    have hkr : (listing r).2 = n.2 := by
      simp only [Tree.listOf, hn, Option.bind_some, Option.map_eq_some_iff] at hr
      obtain ⟨ls, -, hls⟩ := hr
      rw [← hls]
    rw [hr, Option.bind_some, hkr, listing] at hst
    dsimp only at hst
    cases hf : findChild C n.2 (base p) r.1.val with
    | none => exact Tells.failed fun q _ => by rw [hst, hf]; rfl
    | some l => exact Tells.ret (by rw [hst, hf]; rfl)

theorem tells_staleStat {p : Path} {e : GoError}
    (he : ∀ q, e = .notFound q → t.statOf C p = none) :
    Tells C t (staleStat p e) record (t.statOf C p) := by
  rw [staleStat]
  split_ifs with ho
  · apply Tells.query (q := .getStatStale p) trivial
    intro r hr
    cases r with
    | some r => exact Tells.ret hr
    | none => exact Tells.failed he
  · exact Tells.failed he

theorem tells_stat (p : Path) : Tells C t (stat C p) record (t.statOf C p) := by
  rw [stat, ← Tree.statOf_absolute (C := C)]
  apply Tells.query (q := .getStat (absolute p)) trivial
  intro r hr
  cases r with
  | some r => exact Tells.ret hr
  | none =>
    refine Tells.recover ?_ fun e he => tells_staleStat he
    apply (tells_statUncached (absolute_absolute p)).bind fun h => h
    intro r hr
    apply Tells.query (q := .setStat (absolute p) r.1 r.2) hr
    intro _ _
    exact Tells.ret hr

end Reads

section Poller

variable {C : Crypto KR} {t : Tree} {d : Path} {id : LinkID} {kr : KR} {link : Link}

/-- What is created or deleted is announced under the path of the link, where the tree has it. -/
def Truthful (C : Crypto KR) (t : Tree) (ev : DriveEvent) : Prop :=
  ev.type ≠ .changed → Recorded C t ev.linkID ev.path

def AllTruthful (C : Crypto KR) (t : Tree) (evs : List DriveEvent) : Prop :=
  ∀ ev ∈ evs, Truthful C t ev

theorem allTruthful_nil : AllTruthful C t [] := fun _ h => nomatch h

theorem gives_recordChildren (hd : t.locate C d = some (id, kr)) (habs : absolute d = d)
    {links : List Link} (hlinks : ∀ l ∈ links, Describes C t l ∧ l.parentLinkID = id) :
    Gives C t (recordChildren C d kr links) fun _ => True := by
  induction links with
  | nil => exact Gives.ret trivial
  | cons l links ih =>
    have hrest := ih fun l' hl' => hlinks l' (List.mem_cons_of_mem _ hl')
    obtain ⟨hl, hparent⟩ := hlinks l List.mem_cons_self
    rw [recordChildren]
    cases hname : C.getName l kr with
    | none => exact hrest
    | some name =>
      have hrec : Recorded C t l.linkID (child d name) :=
        recorded_child hl (hparent ▸ hd) habs (toldName_of_getName hname)
      apply Gives.query (q := .setLinkPath l.linkID (child d name)) hrec
      exact fun _ _ => hrest

/-- A listing has no names that it lacks itself. -/
theorem namesOnlyIn_self (order : RangeOrder Path) (type : EventType) (d : Path)
    (names : KeyMap Path LinkID) : EventPoller.namesOnlyIn order type d names names = [] := by
  simp only [EventPoller.namesOnlyIn, List.filterMap_eq_nil_iff, RangeOrder.mem_arrange]
  intro name hname
  obtain ⟨id, hid⟩ := (mem_keys_iff names name).mp hname
  simp [hid]

/-- The folder is as it was when it was cached: there is nothing to announce. -/
theorem gives_diffAndEmit (hd : t.locate C d = some (id, kr)) (habs : absolute d = d)
    {oldLinks : List Link} (hold : t.children id = some oldLinks) :
    Gives C t (diffAndEmit C d id kr oldLinks) fun evs => evs = [] := by
  rw [diffAndEmit]
  have hfetch : Gives C t (ask (.listChildren id) >>= attempt) fun x =>
      t.children id = some x.val := by
    apply Gives.query (q := .listChildren id) trivial
    intro r hr
    rcases r with e | x
    · exact Gives.failed
    · exact Gives.ret hr
  apply hfetch.bind
  intro newLinks hnew
  have hsame : newLinks.val = oldLinks := Option.some.inj (hnew.symm.trans hold)
  apply (gives_recordChildren hd habs fun l hl =>
    ⟨describes_of_mem hnew hl, t.parent_of_child hnew hl⟩).bind
  intro _ _
  have hlist : t.listOf C d = some (newLinks.val, kr) := by simp [Tree.listOf, hd, hnew]
  apply Gives.query (q := .setList d newLinks kr) hlist
  intro _ _
  apply Gives.query (q := .rangeOrder) trivial
  intro order₁ _
  apply Gives.query (q := .rangeOrder) trivial
  intro order₂ _
  apply Gives.ret
  rw [hsame, namesOnlyIn_self, namesOnlyIn_self]
  rfl

theorem gives_diffCached (hd : d ≠ [] → Recorded C t id d)
    {old : Option (Tagged ℕ (List Link) × KR)}
    (hold : ∀ r, old = some r → t.listOf C d = some (listing r)) :
    Gives C t (diffCached C d id old) fun evs => evs = [] := by
  unfold diffCached
  split_ifs with hnil
  · exact Gives.failed
  · cases old with
    | none => exact Gives.failed
    | some r =>
      apply Gives.query (q := .nodeKR id) trivial
      intro r' hr'
      cases r' with
      | none => exact Gives.failed
      | some kr =>
        obtain ⟨q, hq⟩ := hr'
        obtain ⟨habs, hloc⟩ := locate_recorded (hd hnil) hq
        apply gives_diffAndEmit hloc habs
        have hlist := hold r rfl
        simp only [Tree.listOf, hloc, Option.bind_some, Option.map_eq_some_iff] at hlist
        obtain ⟨ls, hls, hr⟩ := hlist
        rw [hls, show r.1.val = ls from (congrArg Prod.fst hr).symm]

theorem gives_announceChanged (id : LinkID) (p : Path) :
    Gives C t (announceChanged id p) (AllTruthful C t) := by
  apply Gives.ret
  split_ifs
  · exact allTruthful_nil
  · intro ev hev hne
    cases List.mem_singleton.mp hev
    exact absurd rfl hne

theorem gives_createdName (link : Link) (kr : KR) :
    Gives C t (createdName C link kr) fun name => ∀ n, name = some n →
      toldName C t link kr = some n := by
  rw [createdName]
  cases hname : C.getName link kr with
  | some name =>
    apply Gives.ret
    rintro n ⟨⟩
    exact toldName_of_getName hname
  | none =>
    apply Gives.query (q := .getLink link.linkID) trivial
    intro r hr
    rcases r with e | full
    · exact Gives.ret fun _ h => by cases h
    · apply Gives.ret
      intro n hn
      have hfull : t.link link.linkID = some full.val := hr
      rw [toldName, hname, hfull]
      exact hn

theorem gives_announceCreated (hl : Describes C t link)
    (hd : d ≠ [] → Recorded C t link.parentLinkID d) :
    Gives C t (announceCreated C link d) (AllTruthful C t) := by
  rw [announceCreated]
  split_ifs with hnil
  · exact Gives.failed
  · apply Gives.query (q := .nodeKR link.parentLinkID) trivial
    intro r hr
    cases r with
    | none => exact Gives.failed
    | some parentKR =>
      obtain ⟨q, hq⟩ := hr
      obtain ⟨habs, hloc⟩ := locate_recorded (hd hnil) hq
      apply (gives_createdName link parentKR).bind
      intro name hname
      cases name with
      | none => exact Gives.failed
      | some name =>
        dsimp only
        split_ifs
        · exact Gives.failed
        · have hrec : Recorded C t link.linkID (child d name) :=
            recorded_child hl hloc habs (hname name rfl)
          apply Gives.query (q := .setLinkPath link.linkID (child d name)) hrec
          intro _ _
          apply Gives.ret
          intro ev hev _
          cases List.mem_singleton.mp hev
          exact hrec

theorem gives_announceTrashed (hd : d ≠ [] → Recorded C t id d) :
    Gives C t (announceTrashed id d) (AllTruthful C t) := by
  rw [announceTrashed]
  split_ifs with hnil
  · exact Gives.failed
  · have hfetch : Gives C t (ask (.getLink id) >>= attempt) fun _ => True := by
      apply Gives.query (q := .getLink id) trivial
      intro r _
      rcases r with e | x
      · exact Gives.failed
      · exact Gives.ret trivial
    apply hfetch.bind
    intro l _
    split_ifs
    · apply Gives.query (q := .deleteLinkPath id) trivial
      intro _ _
      apply Gives.ret
      intro ev hev _
      cases List.mem_singleton.mp hev
      exact hd hnil
    · exact Gives.failed

theorem gives_invalidatePath (p : Path) : Gives C t (invalidatePath p) fun _ => True := by
  apply Gives.query (q := .invalidateMeta p) trivial
  intro _ _
  exact Gives.query (q := .deletePathLinks p) trivial fun _ _ => Gives.ret trivial

theorem gives_invalidateLinkID (id : LinkID) :
    Gives C t (invalidateLinkID id) fun _ => True := by
  apply Gives.query (q := .invalidateMetaLink id) trivial
  intro _ _
  exact Gives.query (q := .deletePathLinkOf id) trivial fun _ _ => Gives.ret trivial

theorem gives_invalidateDeleted (link : Link) (p : Path) :
    Gives C t (invalidateDeleted link p) fun _ => True := by
  apply (gives_invalidatePath p).bind
  intro _ _
  split_ifs
  · exact gives_invalidateLinkID link.parentLinkID
  · exact Gives.ret trivial

theorem gives_invalidateCreated (link : Link) (p : Path) :
    Gives C t (invalidateCreated link p) fun _ => True := by
  rw [invalidateCreated]
  split_ifs
  · exact gives_invalidateLinkID link.parentLinkID
  · exact gives_invalidatePath p

theorem gives_invalidateUpdated (link : Link) (p parent : Path) :
    Gives C t (invalidateUpdated link p parent) fun _ => True := by
  apply (gives_invalidatePath p).bind
  intro _ _
  have hlast : Gives C t (if p = [] then invalidateLinkID link.parentLinkID else pure ())
      fun _ => True := by
    split_ifs
    · exact gives_invalidateLinkID link.parentLinkID
    · exact Gives.ret trivial
  by_cases hparent : parent ≠ [] ∧ parent ≠ p
  · rw [if_pos hparent]
    exact (gives_invalidatePath parent).bind fun _ _ => hlast
  · rw [if_neg hparent]
    exact hlast

theorem gives_dropBlocks {next : Op KR ℕ Unit (List DriveEvent)} {post : List DriveEvent → Prop}
    (h : Gives C t next post) (id : LinkID) : Gives C t (dropBlocks id next) post := by
  apply Gives.query (q := .invalidateBlocks id) trivial
  intro r _
  cases r with
  | true => exact h
  | false => exact Gives.failed

theorem gives_handleDelete (link : Link) :
    Gives C t (handleDelete link) (AllTruthful C t) := by
  apply Gives.query (q := .linkPath link.linkID) trivial
  intro p hp
  apply Gives.query (q := .linkPath link.parentLinkID) trivial
  intro parentPath _
  apply (gives_invalidateDeleted link p).bind
  intro _ _
  apply gives_dropBlocks
  split_ifs with hnil
  · exact gives_announceChanged _ _
  · apply Gives.ret
    intro ev hev _
    cases List.mem_singleton.mp hev
    exact hp hnil

theorem Gives.mono {α : Type} {p : Op KR ℕ Unit α} {post post' : α → Prop} (h : Gives C t p post)
    (hpost : ∀ a, post a → post' a) : Gives C t p post' :=
  wp_mono h (fun a _ => hpost a) fun _ _ => id

theorem gives_handleCreate (hl : Describes C t link) :
    Gives C t (handleCreate C link) (AllTruthful C t) := by
  apply Gives.query (q := .linkPath link.parentLinkID) trivial
  intro parentPath hparent
  apply Gives.query (q := .getListStale parentPath) trivial
  intro old hold
  apply (gives_invalidateCreated link parentPath).bind
  intro _ _
  apply (gives_announceCreated hl hparent).recover
  refine Gives.recover ?_ (gives_announceChanged _ _)
  apply (gives_diffCached hparent fun r hr => by cases hr; exact hold).mono
  rintro _ rfl
  exact allTruthful_nil

theorem gives_handleUpdate (link : Link) :
    Gives C t (handleUpdate C link) (AllTruthful C t) := by
  apply Gives.query (q := .linkPath link.linkID) trivial
  intro p hp
  apply Gives.query (q := .linkPath link.parentLinkID) trivial
  intro parentPath hparent
  apply Gives.query (q := .getListStale p) trivial
  intro old hold
  apply Gives.query (q := .getListStale parentPath) trivial
  intro oldParent holdParent
  apply (gives_invalidateUpdated link p parentPath).bind
  intro _ _
  apply gives_dropBlocks
  have hown : Gives C t (diffCached C p link.linkID old) fun evs => evs = [] :=
    gives_diffCached hp fun r hr => by cases hr; exact hold
  have hdir : Gives C t (diffCached C parentPath link.parentLinkID oldParent) fun evs => evs = [] :=
    gives_diffCached hparent fun r hr => by cases hr; exact holdParent
  refine (hown.mono ?_).recover ((hdir.mono ?_).recover
    ((gives_announceTrashed hp).recover (gives_announceChanged _ _)))
  · rintro _ rfl
    exact allTruthful_nil
  · rintro _ rfl
    exact allTruthful_nil

theorem gives_handle (le : LinkEvent) (hl : le.eventType = .create → Describes C t le.link) :
    Gives C t (handle C le) (AllTruthful C t) := by
  rw [handle]
  cases htype : le.eventType with
  | delete => exact gives_handleDelete le.link
  | create => exact gives_handleCreate (hl htype)
  | update => exact gives_handleUpdate le.link
  | updateMetadata => exact gives_handleUpdate le.link

end Poller

section Handler

variable {C : Crypto KR} {t : Tree} {w : World} {x : Journaled KR ℕ}

/-- Every cached fact is a fact of the tree, the recorded paths included. -/
structure Holds (C : Crypto KR) (t : Tree) (x : Journaled KR ℕ) : Prop where
  mirrors : Mirrors C t x.sess
  recorded : ∀ {id p}, x.sess.linkPaths.lookup id = some p → Recorded C t id p

/-- A query that records no path. -/
theorem Holds.update (h : Holds C t x) {s : Session KR} (hm : Mirrors C t s)
    (hp : s.linkPaths = x.sess.linkPaths) : Holds C t (x.update s) :=
  ⟨hm, fun hq => h.recorded (hp ▸ hq)⟩

theorem Holds.called (h : Holds C t x) {α : Type} (answer : Server → Option α) :
    Holds C t (x.update (x.sess.callAPI w answer).state) := by
  rw [Session.callAPI_state]
  exact h.update h.mirrors.tick.mirrors rfl

/-- A response carries what the tree has. -/
theorem Holds.receive (h : Holds C t x) (hw : w.Serves t.toServer) {α : Type}
    (links : α → List Link) (answer : Server → Option α) :
    match x.receive x.sess.ticks links (x.sess.callAPI w answer) with
    | (.ok y, x') => answer t.toServer = some y.val ∧ Holds C t x'
    | (.error e, x') => (∃ a, e = .api a) ∧ Holds C t x' := by
  have hk := h.called (w := w) answer
  rcases Session.callAPI_cases w x.sess answer with ⟨a, -, ha, hc⟩ | ⟨e, -, hc⟩
  · rw [hc] at hk ⊢
    exact ⟨hw x.sess.ticks ▸ ha, hk.mirrors, hk.recorded⟩
  · rw [hc] at hk ⊢
    exact ⟨⟨e, rfl⟩, hk⟩

theorem Holds.setLinkPath (h : Holds C t x) {id : LinkID} {p : Path} (hp : Recorded C t id p) :
    Holds C t (x.update (x.sess.setLinkPath id p)) := by
  refine ⟨(h.mirrors.setLinkPath id p).mirrors, ?_⟩
  intro i q hq
  simp only [Journaled.update, Session.setLinkPath, lookup_insert_ite] at hq
  split_ifs at hq with hi
  · cases hq
    exact hi ▸ hp
  · exact h.recorded hq

theorem Holds.linkPath (h : Holds C t x) (id : LinkID) (hne : x.sess.linkPath id ≠ []) :
    Recorded C t id (x.sess.linkPath id) := by
  unfold Session.linkPath at hne ⊢
  cases hl : x.sess.linkPaths.lookup id with
  | none => simp [hl] at hne
  | some p => exact h.recorded hl

/-- A query that stores a fact of the tree is answered with one and keeps all others. -/
theorem Holds.asked (h : Holds C t x) (hw : w.Serves t.toServer) {q : Query KR ℕ}
    (hok : storable C t q) : answered C t q (exec w (fun n => n) q x).1 ∧
      Holds C t (exec w (fun n => n) q x).2 := by
  cases q with
  | getShare =>
    have hk := h.called (w := w) fun srv => some srv.share
    rcases Session.callAPI_cases w x.sess fun srv => some srv.share with
      ⟨share, -, ha, hc⟩ | ⟨e, -, hc⟩
    · rw [hc] at hk
      simp only [exec, hc]
      rw [hw x.sess.ticks] at ha
      exact ⟨(Option.some.inj ha).symm, hk⟩
    · rw [hc] at hk
      simp only [exec, hc]
      exact ⟨⟨e, rfl⟩, hk⟩
  | getLink id =>
    have hr := h.receive hw (fun l => [l]) fun srv => srv.link id
    simp only [exec]
    generalize x.receive x.sess.ticks (fun l => [l])
      (x.sess.callAPI w fun srv => srv.link id) = r at hr ⊢
    rcases r with ⟨e | y, x'⟩ <;> exact hr
  | listChildren id =>
    have hr := h.receive hw (fun ls => ls) fun srv => srv.children id
    simp only [exec]
    generalize x.receive x.sess.ticks (fun ls => ls)
      (x.sess.callAPI w fun srv => srv.children id) = r at hr ⊢
    rcases r with ⟨e | y, x'⟩ <;> exact hr
  | createFolder req => exact ⟨trivial, h.called _⟩
  | deleteChildren req => exact ⟨trivial, h.called _⟩
  | getStat p =>
    refine ⟨?_, h.update h.mirrors.tick.mirrors rfl⟩
    cases hr : (exec w (fun n => n) (.getStat p) x).1 with
    | none => exact trivial
    | some r =>
      obtain ⟨e, he, -, rfl⟩ := getStat_some hr
      exact h.mirrors.stat he
  | getList p =>
    refine ⟨?_, h.update h.mirrors.tick.mirrors rfl⟩
    cases hr : (exec w (fun n => n) (.getList p) x).1 with
    | none => exact trivial
    | some r =>
      obtain ⟨e, he, -, rfl⟩ := getList_some hr
      exact h.mirrors.list he
  | getStatStale p =>
    refine ⟨?_, h⟩
    cases hr : (exec w (fun n => n) (.getStatStale p) x).1 with
    | none => exact trivial
    | some r =>
      obtain ⟨e, he, rfl⟩ := getStatStale_some hr
      exact h.mirrors.stat he
  | getListStale p =>
    refine ⟨?_, h⟩
    cases hr : (exec w (fun n => n) (.getListStale p) x).1 with
    | none => exact trivial
    | some r =>
      obtain ⟨e, he, rfl⟩ := getListStale_some hr
      exact h.mirrors.list he
  | setList p y kr =>
    have hm := h.mirrors.setList w hok
    exact ⟨trivial, hm.mirrors, h.recorded⟩
  | setStat p y kr =>
    have hm := h.mirrors.setStat w hok
    exact ⟨trivial, hm.mirrors, h.recorded⟩
  | invalidateMeta p =>
    refine ⟨trivial, h.update (h.mirrors.below rfl rfl rfl ?_ fun _ _ hq => hq) rfl⟩
    exact MetaCache.Cache.invalidatePath_below ..
  | invalidateMetaLink id =>
    refine ⟨trivial, h.update (h.mirrors.below rfl rfl rfl ?_ fun _ _ hq => hq) rfl⟩
    exact MetaCache.Cache.invalidateLinkID_below ..
  | rootID => exact ⟨h.mirrors.root, h⟩
  | shareKR =>
    refine ⟨?_, h⟩
    cases hr : (exec w (fun n => n) .shareKR x).1 with
    | none => exact trivial
    | some kr => exact h.mirrors.share hr
  | setShareKR kr =>
    have hm := h.mirrors
    refine ⟨trivial, h.update ⟨hm.root, ?_, hm.node, hm.path, hm.list, hm.stat⟩ rfl⟩
    intro k hk
    cases hk
    exact hok
  | nodeKR id =>
    refine ⟨?_, h⟩
    cases hr : (exec w (fun n => n) (.nodeKR id) x).1 with
    | none => exact trivial
    | some kr => exact h.mirrors.node hr
  | setNodeKR id kr =>
    obtain ⟨p, hp⟩ := hok
    exact ⟨trivial, h.update (h.mirrors.setNodeKR hp).mirrors rfl⟩
  | linkPath id => exact ⟨h.linkPath id, h⟩
  | setLinkPath id p => exact ⟨trivial, h.setLinkPath hok⟩
  | deleteLinkPath id =>
    have hm := h.mirrors
    refine ⟨trivial, ⟨hm.root, hm.share, hm.node, hm.path, hm.list, hm.stat⟩, ?_⟩
    intro i p hp
    simp only [exec, Journaled.update, lookup_erase_ite] at hp
    split_ifs at hp
    exact h.recorded hp
  | pathLink p =>
    refine ⟨?_, h⟩
    cases hr : (exec w (fun n => n) (.pathLink p) x).1 with
    | none => exact trivial
    | some id => exact h.mirrors.path hr
  | setPathLink p id =>
    obtain ⟨kr, hp⟩ := hok
    exact ⟨trivial, h.update (h.mirrors.setPathLink hp).mirrors rfl⟩
  | deletePathLinks p =>
    refine ⟨trivial, h.update (h.mirrors.below rfl rfl rfl (.refl _) ?_) rfl⟩
    intro q id hq
    rw [lookup_dropKeys] at hq
    split_ifs at hq
    exact hq
  | deletePathLinkOf id =>
    refine ⟨trivial, h.update (h.mirrors.below rfl rfl rfl (.refl _) ?_) rfl⟩
    intro q i hq
    dsimp only at hq
    split at hq
    · rw [lookup_erase_ite] at hq
      split_ifs at hq
      exact hq
    · exact hq
  | invalidateBlocks id =>
    simp only [exec]
    cases hs : EventPoller.dropBlocks id x.sess with
    | none => exact ⟨trivial, h⟩
    | some s =>
      simp only [EventPoller.dropBlocks, Option.map_eq_some_iff] at hs
      obtain ⟨bc, -, rfl⟩ := hs
      have hm := h.mirrors
      exact ⟨trivial, h.update ⟨hm.root, hm.share, hm.node, hm.path, hm.list, hm.stat⟩ rfl⟩
  | rangeOrder => exact ⟨trivial, h.update h.mirrors.tick.mirrors rfl⟩

end Handler

section Interleavings

variable {T : Type} (C : Crypto KR) (t : Tree)

/-- A call of a connection, or an event for the poller; the event of a creation tells the folder and
the name that the tree has for the link, if it has it. -/
inductive Task (C : Crypto KR) (t : Tree)
  | read (r : Reader)
  | event (le : LinkEvent) (hl : le.eventType = .create → Describes C t le.link)

inductive Result (KR : Type)
  | answer (a : DriveSession.Answer KR)
  | announced (evs : List DriveEvent)
  deriving DecidableEq

def readerCall : Reader → Call
  | .listChildren p => .listChildren p
  | .stat p => .stat p
  | .resolvePath p => .resolvePath p

/-- A call with its answer. -/
def readerBody : Reader → Op KR ℕ GoError (DriveSession.Answer KR)
  | .listChildren p => do
    let r ← listChildren C p
    pure (.listing r.1.val r.2)
  | .stat p => do
    let r ← stat C p
    pure (.link r.1.val r.2)
  | .resolvePath p => do
    let n ← resolvePath C p
    pure (.node n)

def Task.body : Task C t → Op KR ℕ GoError (Result KR)
  | .read r => do
    let a ← readerBody C r
    pure (.answer a)
  | .event le _ => do
    let evs ← (handle C le).mapError fun _ => GoError.nilDereference
    pure (.announced evs)

/-- Some world that holds the tree answers a query. -/
def ServedBy (h : Handler (Journaled KR ℕ) (Query KR ℕ) SessionPrograms.Answer) : Prop :=
  ∃ w : World, w.Serves t.toServer ∧ h = exec w fun n => n

/-- What happens to the session between two queries: each of the two assignments of
`invalidateAll`, and the block cache of the file reads. -/
inductive Disturbs (x : Journaled KR ℕ) : Journaled KR ℕ → Prop
  | dropMeta : Disturbs x
      (x.update { x.sess with metaCache := x.sess.metaCache.invalidateAll })
  | dropPathLinks : Disturbs x (x.update { x.sess with pathLinks := ∅ })
  | blocks (b : Option BlockCache.Cache) (n : ℕ) : Disturbs x
      (x.update { x.sess with blocks := b, ticks := n })

def Opened (x : Journaled KR ℕ) : Prop := ∃ blocks, x.sess = newSession t.rootID blocks

abbrev Runs [DecidableEq T] (s : SharedPrograms.State T (Task C t) GoError (Journaled KR ℕ)
    (Query KR ℕ) SessionPrograms.Answer (Result KR)) : Prop :=
  Reached (Task.body C t) (ServedBy t) Disturbs (Opened t) s

/-- What a task promises: the answer of the plain walk, or true announcements. -/
def Task.post : Task C t → Result KR → Prop
  | .read r, .answer a => expected C t (readerCall r) = some a
  | .event _ _, .announced evs => AllTruthful C t evs
  | _, _ => False

def Task.err : Task C t → GoError → Prop
  | .read r, e => ∀ q, e = .notFound q → expected C t (readerCall r) = none
  | .event _ _, _ => True

variable {C t}

theorem tells_readerBody (r : Reader) :
    Tells C t (readerBody C r) id (expected C t (readerCall r)) := by
  cases r with
  | listChildren p =>
    apply (tells_listChildren p).bind fun h => by simp [readerCall, expected, h]
    intro r hr
    exact Tells.ret (by simp [readerCall, expected, hr, listing])
  | stat p =>
    apply (tells_stat p).bind fun h => by simp [readerCall, expected, h]
    intro r hr
    exact Tells.ret (by simp [readerCall, expected, hr, record])
  | resolvePath p =>
    apply (tells_resolvePath p).bind fun h => by simp [readerCall, expected, h]
    intro n hn
    exact Tells.ret (by simp [readerCall, expected, hn])

theorem wp_body (j : Task C t) :
    (Task.body C t j).wp (facts C t) (fun a _ => Task.post C t j a) (fun e _ => Task.err C t j e)
      () := by
  cases j with
  | read r => exact wp_bind (tells_readerBody r) fun a _ ha => ha
  | event le hl =>
    have hevs : ((handle C le).mapError fun _ => GoError.nilDereference).wp (facts C t)
        (fun evs _ => AllTruthful C t evs) (fun _ _ => True) () :=
      wp_recover (gives_handle le hl) fun _ _ _ => trivial
    exact wp_bind hevs fun evs _ hevs => hevs

theorem holds_opened {x : Journaled KR ℕ} (h : Opened t x) : Holds C t x := by
  obtain ⟨blocks, hx⟩ := h
  refine ⟨hx ▸ mirrors_newSession blocks, ?_⟩
  intro id p hp
  rw [hx] at hp
  cases hp

theorem Holds.disturbed {x y : Journaled KR ℕ} (h : Holds C t x) (hd : Disturbs x y) :
    Holds C t y := by
  have hm := h.mirrors
  cases hd with
  | dropMeta =>
    refine h.update (hm.below rfl rfl rfl ?_ fun _ _ hq => hq) rfl
    exact MetaCache.Cache.invalidateAll_below _
  | dropPathLinks =>
    exact h.update (hm.below rfl rfl rfl (.refl _) fun _ _ hq => by cases hq) rfl
  | blocks b n =>
    exact h.update ⟨hm.root, hm.share, hm.node, hm.path, hm.list, hm.stat⟩ rfl

/-- All of the session shares one contract. -/
theorem shares_facts : Shares (facts C t) (ServedBy t) Disturbs fun _ => Holds C t := by
  apply shares_promise
  · rintro _ ⟨w, hw, rfl⟩ x q hx hq
    exact hx.asked hw hq
  · exact fun x y hx hd => hx.disturbed hd

variable [DecidableEq T] {s : SharedPrograms.State T (Task C t) GoError (Journaled KR ℕ)
  (Query KR ℕ) SessionPrograms.Answer (Result KR)}

/-- However calls, events and invalidations interleave on an unchanging server, a call that
succeeds answers as the plain walk, one that says "not found" is right, every creation and
deletion is announced under the path of its link, and so is every link recorded. -/
theorem concurrent_answers_exact (h : Runs C t s) :
    (∀ i r a, s.threads i = some (.read r, .ret (.answer a)) →
      expected C t (readerCall r) = some a) ∧
    (∀ i r q, s.threads i = some (.read r, .fail (.notFound q)) →
      expected C t (readerCall r) = none) ∧
    (∀ i le hl evs, s.threads i = some (.event le hl, .ret (.announced evs)) →
      AllTruthful C t evs) ∧
    ∀ id p, s.shared.sess.linkPaths.lookup id = some p → Recorded C t id p := by
  have hinit : ∀ x, Opened t x → ∀ _ : Task C t, Holds C t x := fun x hx _ => holds_opened hx
  refine ⟨?_, ?_, ?_, ?_⟩
  · intro i r a hi
    obtain ⟨_, hpost, -⟩ := Reached.returned shares_facts hinit wp_body h hi
    exact hpost
  · intro i r q hi
    obtain ⟨_, herr, -⟩ := Reached.failed shares_facts hinit wp_body h hi
    exact herr q rfl
  · intro i le hl evs hi
    obtain ⟨_, hpost, -⟩ := Reached.returned shares_facts hinit wp_body h hi
    exact hpost
  · intro id p hp
    exact ((inv_reached shares_facts hinit wp_body h).ready (.read (.stat []))).recorded hp

/-- The record of an event that leaves the name out. -/
theorem describes_unnamed : Describes Crypto.plain oneFolder (plainFolder "A" "root" "") := by
  have hchild : ∀ {d ls l'}, oneFolder.children d = some ls → l' ∈ ls →
      l' = plainFolder "A" "root" "a" := by
    intro d ls l' hls hl'
    simp only [oneFolder] at hls
    split_ifs at hls <;> cases hls
    · exact List.mem_singleton.mp hl'
    · cases hl'
  refine ⟨by decide, ?_, ?_⟩
  · intro d ls l' hls hl' _
    rw [hchild hls hl']
    rfl
  · intro d ls l' kr n e hls hl' _ hn he
    have htold : toldName Crypto.plain oneFolder (plainFolder "A" "root" "") kr =
        Crypto.plain.getName (plainFolder "A" "root" "a") kr := by
      cases kr
      decide
    rw [hchild hls hl', ← htold, hn] at he
    exact (Option.some.inj he).symm

def listRoot : Task Crypto.plain oneFolder := .read (.listChildren ['/'])

def statFolder : Task Crypto.plain oneFolder := .read (.stat "/a".toList)

def folderCreated : Task Crypto.plain oneFolder :=
  .event ⟨.create, plainFolder "A" "root" ""⟩ fun _ => describes_unnamed

def fresh : Journaled Unit ℕ := ⟨newSession "root" none, fun _ => 0, fun _ => 0, []⟩

/-- Three threads on the tree with one folder: while the first is in the middle of listing the root,
the metadata cache is cleared, the second stats the folder, and the third handles the event of its
creation. -/
theorem concurrent_answers_exact_oneFolder :
    ∃ s : SharedPrograms.State ℕ (Task Crypto.plain oneFolder) GoError (Journaled Unit ℕ)
        (Query Unit ℕ) SessionPrograms.Answer (Result Unit),
      (s.threads 0).map (fun x => x.2.done) = some false ∧
      s.threads 1 =
        some (statFolder, .ret (.answer (.link (plainFolder "A" "root" "a") ()))) ∧
      s.threads 2 = some (folderCreated, .ret (.announced [⟨.created, "A", "/a".toList⟩])) ∧
      expected Crypto.plain oneFolder (.stat "/a".toList) =
        some (.link (plainFolder "A" "root" "a") ()) ∧
      AllTruthful Crypto.plain oneFolder [⟨.created, "A", "/a".toList⟩] := by
  let w := World.steady oneFolder.toServer
  have hw : ServedBy oneFolder (exec w fun n => n : Handler (Journaled Unit ℕ) _ _) :=
    ⟨w, fun _ => rfl, rfl⟩
  have hopen : Runs (T := ℕ) Crypto.plain oneFolder (.opened fresh) := .opened ⟨none, rfl⟩
  have hlist := hopen.start (t := 0) (fun _ _ h => nomatch h) listRoot
  have hmiddle := ((((hlist.advance hw 0).advance hw 0).advance hw 0).advance hw 0)
  have hstat := (hmiddle.disturb .dropMeta).start (t := 1) (fun _ _ h => nomatch h) statFolder
  have hstated := hstat.completes hw (Function.update_self ..)
  generalize hrun₁ : Prog.run _ _ _ = o₁ at hstated
  have hresult₁ : o₁.result = .ok (.answer (.link (plainFolder "A" "root" "a") ())) := by
    rw [← hrun₁]
    decide +kernel
  rw [hresult₁] at hstated
  have hevent := hstated.start (t := 2) (fun _ _ h => nomatch h) folderCreated
  have hend := hevent.completes hw (Function.update_self ..)
  generalize hrun₂ : Prog.run _ _ _ = o₂ at hend
  have hresult₂ : o₂.result = .ok (.announced [⟨.created, "A", "/a".toList⟩]) := by
    rw [← hrun₂, ← hrun₁]
    decide +kernel
  rw [hresult₂] at hend
  obtain ⟨s, hs, hother, hdone, hevs⟩ : ∃ s : SharedPrograms.State ℕ _ _ _ _ _ _,
      Runs Crypto.plain oneFolder s ∧ (s.threads 0).map (fun x => x.2.done) = some false ∧
        s.threads 1 =
          some (statFolder, .ret (.answer (.link (plainFolder "A" "root" "a") ()))) ∧
        s.threads 2 = some (folderCreated, .ret (.announced [⟨.created, "A", "/a".toList⟩])) := by
    refine ⟨_, hend, ?_, ?_, ?_⟩
    · dsimp only [State.start]
      rw [Function.update_of_ne (by decide), Function.update_of_ne (by decide),
        Function.update_of_ne (by decide)]
      decide +kernel
    · dsimp only [State.start]
      rw [Function.update_of_ne (by decide), Function.update_of_ne (by decide)]
      simp only [Function.update_self, ended]
    · simp only [Function.update_self, ended]
  have hexact := concurrent_answers_exact hs
  exact ⟨s, hother, hdone, hevs, hexact.1 1 (.stat "/a".toList) _ hdone, hexact.2.2.1 2 _ _ _ hevs⟩

end Interleavings

end ProtonDrive.ConcurrentReads
