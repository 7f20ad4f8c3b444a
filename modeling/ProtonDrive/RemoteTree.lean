import ProtonDrive.DriveSession

/-!
# The remote tree and the plain walk

What the caches stand for: on a server that holds a tree, a path is resolved by walking
from the root, at each component to the first child whose decrypted name matches, with no
cache involved. Link ids then identify places, so a keyring found on one walk is right for
every walk that ends at the same link.
-/

namespace ProtonDrive.RemoteTree
open SlashPaths DriveApi DriveSession

/-- A server whose folders form a tree under the root link. -/
structure Tree extends Server where
  rootID : LinkID
  parent_of_child : ∀ {d ls l}, children d = some ls → l ∈ ls → l.parentLinkID = d
  root_not_child : ∀ {d ls l}, children d = some ls → l ∈ ls → l.linkID ≠ rootID
  link_unique : ∀ {d ls l d' ls' l'}, children d = some ls → l ∈ ls →
    children d' = some ls' → l' ∈ ls' → l.linkID = l'.linkID → l = l'

abbrev Node (KR : Type) := LinkID × KR

variable {KR : Type} (C : Crypto KR) (t : Tree)

namespace Tree

def rootKR : Option KR :=
  (C.shareKeyRing t.share).bind fun shareKR =>
    (t.link t.rootID).bind fun l => C.getKeyRing l shareKR

/-- One component of the walk. -/
def enter (n : Node KR) (part : Path) : Option (Node KR) :=
  (t.children n.1).bind fun ls =>
    (findChild C n.2 part ls).bind fun l =>
      (C.getKeyRing l n.2).map fun kr => (l.linkID, kr)

def descend (n : Node KR) : List Path → Option (Node KR)
  | [] => some n
  | part :: parts => (t.enter C n part).bind fun m => descend m parts

/-- The plain walk from the root. -/
def locate (p : Path) : Option (Node KR) :=
  (t.rootKR C).bind fun kr => t.descend C (t.rootID, kr) (splitPath p)

def listOf (p : Path) : Option (List Link × KR) :=
  (t.locate C p).bind fun n => (t.children n.1).map fun ls => (ls, n.2)

def childOf (parent name : Path) : Option (Link × KR) :=
  (t.listOf C parent).bind fun r => (findChild C r.2 name r.1).map fun l => (l, r.2)

/-- The root answers for itself, any other path for its place in its parent's listing. -/
def statOf (p : Path) : Option (Link × KR) :=
  if absolute p = ['/'] then (t.link t.rootID).bind fun l => (t.rootKR C).map fun kr => (l, kr)
  else t.childOf C (dir (absolute p)) (base (absolute p))

variable {C t}

theorem descend_append (n : Node KR) (es fs : List Path) :
    t.descend C n (es ++ fs) = (t.descend C n es).bind fun m => t.descend C m fs := by
  induction es generalizing n with
  | nil => rfl
  | cons e es ih =>
    simp only [List.cons_append, descend]
    cases t.enter C n e with
    | none => rfl
    | some m => exact ih m

theorem enter_eq_some {n m : Node KR} {part : Path} (h : t.enter C n part = some m) :
    ∃ ls l, t.children n.1 = some ls ∧ l ∈ ls ∧ C.getName l n.2 = some part ∧
      C.getKeyRing l n.2 = some m.2 ∧ l.linkID = m.1 := by
  simp only [enter, Option.bind_eq_some_iff, Option.map_eq_some_iff] at h
  obtain ⟨ls, hls, l, hl, kr, hkr, rfl⟩ := h
  exact ⟨ls, l, hls, (findChild_some hl).1, (findChild_some hl).2, hkr, rfl⟩

/-- Different walks from the root end at different links. -/
theorem descend_injective {k : KR} {es fs : List Path} {id : LinkID} {kr kr' : KR}
    (h : t.descend C (t.rootID, k) es = some (id, kr))
    (h' : t.descend C (t.rootID, k) fs = some (id, kr')) : es = fs := by
  induction hn : es.length generalizing es fs id kr kr' with
  | zero =>
    rw [List.length_eq_zero_iff.mp hn] at h ⊢
    cases h
    rcases fs.eq_nil_or_concat' with rfl | ⟨fs, f, rfl⟩
    · rfl
    · rw [descend_append, Option.bind_eq_some_iff] at h'
      obtain ⟨m, -, hm⟩ := h'
      simp only [descend, Option.bind_eq_some_iff] at hm
      obtain ⟨m', he, hm'⟩ := hm
      cases hm'
      obtain ⟨ls, l, hls, hl, -, -, hid⟩ := enter_eq_some he
      exact absurd hid (t.root_not_child hls hl)
  | succ n ih =>
    rcases es.eq_nil_or_concat' with rfl | ⟨es, e, rfl⟩
    · cases hn
    rw [descend_append, Option.bind_eq_some_iff] at h
    obtain ⟨m, hm, he⟩ := h
    simp only [descend, Option.bind_eq_some_iff] at he
    obtain ⟨m', he, hm'⟩ := he
    cases hm'
    obtain ⟨ls, l, hls, hl, hname, -, hid⟩ := enter_eq_some he
    rcases fs.eq_nil_or_concat' with rfl | ⟨fs, f, rfl⟩
    · cases h'
      exact absurd hid (t.root_not_child hls hl)
    rw [descend_append, Option.bind_eq_some_iff] at h'
    obtain ⟨q, hq, hf⟩ := h'
    simp only [descend, Option.bind_eq_some_iff] at hf
    obtain ⟨q', hf, hq'⟩ := hf
    cases hq'
    obtain ⟨ls', l', hls', hl', hname', -, hid'⟩ := enter_eq_some hf
    -- both walks enter the same link, so they come from the same folder
    have hll : l = l' := t.link_unique hls hl hls' hl' (hid.trans hid'.symm)
    have hd : m.1 = q.1 := by
      rw [← t.parent_of_child hls hl, ← t.parent_of_child hls' hl', hll]
    have hq₁ : t.descend C (t.rootID, k) fs = some (m.1, q.2) := by rw [hq, hd]
    have hes : es = fs := ih hm hq₁ (by simpa using hn)
    subst hes
    cases hm.symm.trans hq
    rw [hll, hname'] at hname
    cases hname
    rfl

theorem locate_unique {p q : Path} {id : LinkID} {kr kr' : KR}
    (h : t.locate C p = some (id, kr)) (h' : t.locate C q = some (id, kr')) :
    kr = kr' ∧ absolute p = absolute q := by
  simp only [locate, Option.bind_eq_some_iff] at h h'
  obtain ⟨k, hk, hp⟩ := h
  obtain ⟨k', hk', hq⟩ := h'
  cases hk.symm.trans hk'
  have he := descend_injective hp hq
  rw [he] at hp
  cases hp.symm.trans hq
  refine ⟨rfl, ?_⟩
  rw [splitPath_eq, splitPath_eq] at he
  rw [absolute_eq_render, absolute_eq_render, he]

@[simp] theorem locate_absolute (p : Path) : t.locate C (absolute p) = t.locate C p := by
  simp only [locate, splitPath_eq, elements_absolute]

theorem locate_root : t.locate C ['/'] = (t.rootKR C).map fun kr => (t.rootID, kr) := by
  have he : splitPath ['/'] = [] := by decide
  simp only [locate, he, descend, Option.map_eq_bind]
  rfl

@[simp] theorem statOf_absolute (p : Path) : t.statOf C (absolute p) = t.statOf C p := by
  rw [statOf, absolute_absolute, statOf]

end Tree

/-- A root folder with the given children and nothing below them. -/
def flatTree (ls : List Link) (hls : ∀ l ∈ ls, l.parentLinkID = "root" ∧ l.linkID ≠ "root")
    (hunique : ∀ l ∈ ls, ∀ l' ∈ ls, l.linkID = l'.linkID → l = l') : Tree where
  share := ⟨""⟩
  link id := if id = "root" then some (plainFolder "root" "" "") else ls.find? (·.linkID = id)
  children id := if id = "root" then some ls else none
  revision _ _ _ _ := none
  block _ _ := none
  rootID := "root"
  parent_of_child := by
    intro d ls' l h hl
    split_ifs at h with hd
    cases h
    rw [hd, (hls l hl).1]
  root_not_child := by
    intro d ls' l h hl
    split_ifs at h
    cases h
    exact (hls l hl).2
  link_unique := by
    intro d ls₁ l d' ls₂ l' h hl h' hl' hid
    split_ifs at h h'
    cases h
    cases h'
    exact hunique l hl l' hl' hid

end ProtonDrive.RemoteTree
