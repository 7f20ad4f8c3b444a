import ProtonDrive.PercentEscapes
import ProtonDrive.BlockStore

/-!
# Where the caches lie

The places that a helper writes to in the cache directory of the user: blocks, thumbnails and the
event anchor, below one directory for each account. The account is escaped like a segment of a URL,
so it is one component of the path whatever is in it.
-/

namespace ProtonDrive.CacheLayout
open SlashPaths PercentEscapes BlockStore
open DriveApi (LinkID RevisionID)

section Places

/-- What `url.PathEscape` leaves as it is. -/
def segmentChars : List Char :=
  ['A', 'B', 'C', 'D', 'E', 'F', 'G', 'H', 'I', 'J', 'K', 'L', 'M', 'N', 'O', 'P',
   'Q', 'R', 'S', 'T', 'U', 'V', 'W', 'X', 'Y', 'Z', 'a', 'b', 'c', 'd', 'e', 'f',
   'g', 'h', 'i', 'j', 'k', 'l', 'm', 'n', 'o', 'p', 'q', 'r', 's', 't', 'u', 'v',
   'w', 'x', 'y', 'z', '0', '1', '2', '3', '4', '5', '6', '7', '8', '9', '-', '_',
   '.', '~', '$', '&', '+', '=', ':', '@']

def segment : Kept where
  chars := segmentChars
  ascii := by
    have hall : segmentChars.all fun c => c.toNat < 128 := by decide +kernel
    intro c hc
    simpa using List.all_eq_true.mp hall c hc
  percent := by decide +kernel

/-- `url.PathEscape`. -/
def pathEscape (s : String) : Path := escape segment (bytesOf s)

/-- `blockCacheBase`, with the cache directory of the user. -/
def blockCacheBase (cacheDir : Path) (account : String) : Path :=
  join [cacheDir, "proton-drive".toList, pathEscape account]

/-- A file in the caches of an account. -/
inductive CacheFile
  | anchor
  | block (linkID : LinkID) (revisionID : RevisionID) (index : ℤ)
  | thumbnail (linkID : LinkID) (revisionID : RevisionID)
  deriving DecidableEq, Repr

/-- The root of `NewBlockCache`. -/
def blocksRoot (base : Path) : Path := join [base, "blocks".toList]

def CacheFile.path (base : Path) : CacheFile → Path
  | .anchor => join [base, "anchor".toList]
  | .block linkID revisionID index =>
    join [blocksRoot base, linkID.toList, revisionID.toList, itoa index]
  | .thumbnail linkID revisionID =>
    join [base, "thumbnails".toList, linkID.toList, revisionID.toList]

/-- What `InvalidateLink` removes, with all that is below it. -/
def linkDir (base : Path) (linkID : LinkID) : Path := join [blocksRoot base, linkID.toList]

end Places

section Joins

variable {es fs : List Path}

theorem intercalate_cons (a : Path) (fs : List Path) :
    ['/'].intercalate (a :: fs) = a ++ fs.flatMap fun f => '/' :: f := by
  induction fs generalizing a with
  | nil => simp [List.intercalate]
  | cons f fs ih =>
    have hstep : ['/'].intercalate (a :: f :: fs) = a ++ '/' :: ['/'].intercalate (f :: fs) := by
      simp [List.intercalate]
    rw [hstep, ih, List.flatMap_cons, List.cons_append]

theorem components_append (he : ∀ e ∈ es, IsComponent e) (hf : ∀ f ∈ fs, IsComponent f) :
    ∀ e ∈ es ++ fs, IsComponent e := by
  intro e hm
  rcases List.mem_append.mp hm with hm | hm
  · exact he e hm
  · exact hf e hm

theorem elements_slash {f : Path} (hf : IsComponent f) (p : Path) :
    elements true (p ++ '/' :: f) = elements true p ++ [f] := by
  have hsplit : (p ++ '/' :: f).splitOn '/' = p.splitOn '/' ++ [f] := by
    rw [List.splitOn_append_cons_self, List.splitOn_eq_singleton hf.noSlash]
  rw [elements, hsplit, List.foldl_append, List.foldl_cons, List.foldl_nil,
    cleanStep_component hf, List.reverse_cons, elements]

theorem elements_flatMap (hf : ∀ f ∈ fs, IsComponent f) (p : Path) :
    elements true (p ++ fs.flatMap fun f => '/' :: f) = elements true p ++ fs := by
  induction fs generalizing p with
  | nil => simp
  | cons f fs ih =>
    rw [List.flatMap_cons, ← List.append_assoc, ih fun g hg => hf g (List.mem_cons_of_mem f hg),
      elements_slash (hf f List.mem_cons_self), List.append_assoc, List.singleton_append]

/-- Components are appended to the clean form of a rooted path. -/
theorem join_rooted {p : Path} (hp : p.head? = some '/') (hf : ∀ f ∈ fs, IsComponent f) :
    join (p :: fs) = render (elements true p ++ fs) := by
  have hne : p ≠ [] := by
    rintro rfl
    cases hp
  have hdrop : (p :: fs).dropWhile (· = []) = p :: fs :=
    List.dropWhile_cons_of_neg (by simpa using hne)
  have hhead : (p ++ fs.flatMap fun f => '/' :: f).head? = some '/' := by
    rw [List.head?_append, hp]
    rfl
  rw [join, hdrop]
  dsimp only
  rw [intercalate_cons, clean, if_pos hhead, elements_flatMap hf]

theorem head?_render (es : List Path) : (render es).head? = some '/' := by
  cases es <;> rfl

end Joins

section Accounts

variable {a a' : String} {c : Char}

theorem pathEscape_injective : Function.Injective pathEscape :=
  (escape_injective segment).comp bytesOf_injective

theorem slash_not_mem_pathEscape (a : String) : '/' ∉ pathEscape a := by
  intro hc
  rcases mem_escape hc with hc | hc | hc
  · exact absurd hc (by decide +kernel)
  · exact absurd hc (by decide)
  · exact absurd hc (by decide)

/-- An escaped account is one component of a path, unless it stands for no directory of its own. -/
theorem isComponent_pathEscape : IsComponent (pathEscape a) ↔ a ≠ "" ∧ a ≠ "." ∧ a ≠ ".." := by
  have hempty : pathEscape "" = [] := by decide +kernel
  have hdot : pathEscape "." = ['.'] := by decide +kernel
  have hdots : pathEscape ".." = ['.', '.'] := by decide +kernel
  constructor
  · intro h
    refine ⟨?_, ?_, ?_⟩
    · rintro rfl
      exact h.nonempty hempty
    · rintro rfl
      exact h.notDot hdot
    · rintro rfl
      exact h.notDotDot hdots
  · rintro ⟨h₁, h₂, h₃⟩
    refine ⟨?_, slash_not_mem_pathEscape a, ?_, ?_⟩
    · exact fun h => h₁ (pathEscape_injective (h.trans hempty.symm))
    · exact fun h => h₂ (pathEscape_injective (h.trans hdot.symm))
    · exact fun h => h₃ (pathEscape_injective (h.trans hdots.symm))

/-- The ids of the server are components of a path. -/
def CacheFile.Plain : CacheFile → Prop
  | .anchor => True
  | .block linkID revisionID _ | .thumbnail linkID revisionID =>
    IsComponent linkID.toList ∧ IsComponent revisionID.toList

/-- The way from the directory of an account to one of its files. -/
def CacheFile.components : CacheFile → List Path
  | .anchor => ["anchor".toList]
  | .block linkID revisionID index =>
    ["blocks".toList, linkID.toList, revisionID.toList, itoa index]
  | .thumbnail linkID revisionID => ["thumbnails".toList, linkID.toList, revisionID.toList]

variable {cacheDir : Path} {f f' : CacheFile}

theorem CacheFile.Plain.components (h : f.Plain) : ∀ e ∈ f.components, IsComponent e := by
  cases f with
  | anchor => simp [CacheFile.components]; decide
  | block linkID revisionID index =>
    have hblocks : IsComponent "blocks".toList := by decide
    simpa [CacheFile.components] using ⟨hblocks, h.1, h.2, itoa_component index⟩
  | thumbnail linkID revisionID =>
    have hthumbnails : IsComponent "thumbnails".toList := by decide
    simpa [CacheFile.components] using ⟨hthumbnails, h.1, h.2⟩

theorem CacheFile.components_injective (h : f.components = f'.components) : f = f' := by
  cases f <;> cases f' <;> simp [CacheFile.components, String.toList_inj] at h ⊢
  · exact ⟨h.1, h.2.1, itoa_injective h.2.2⟩
  · exact h

/-- The directory of an account. -/
def accountDir (cacheDir : Path) (a : String) : List Path :=
  elements true cacheDir ++ ["proton-drive".toList, pathEscape a]

theorem blockCacheBase_eq (hd : cacheDir.head? = some '/') (ha : IsComponent (pathEscape a)) :
    blockCacheBase cacheDir a = render (accountDir cacheDir a) := by
  have hname : IsComponent "proton-drive".toList := by decide
  exact join_rooted hd (by simpa using ⟨hname, ha⟩)

theorem components_accountDir (ha : IsComponent (pathEscape a)) :
    ∀ e ∈ accountDir cacheDir a, IsComponent e := by
  have hname : IsComponent "proton-drive".toList := by decide
  exact components_append (elements_components cacheDir) (by simpa using ⟨hname, ha⟩)

/-- Everything below the directory of an account. -/
theorem join_account (hd : cacheDir.head? = some '/') (ha : IsComponent (pathEscape a))
    (hf : ∀ e ∈ fs, IsComponent e) :
    join (blockCacheBase cacheDir a :: fs) = render (accountDir cacheDir a ++ fs) := by
  rw [blockCacheBase_eq hd ha, join_rooted (head?_render _) hf,
    elements_render (components_accountDir ha)]

theorem blocksRoot_eq (hd : cacheDir.head? = some '/') (ha : IsComponent (pathEscape a)) :
    blocksRoot (blockCacheBase cacheDir a) = render (accountDir cacheDir a ++ ["blocks".toList]) :=
  join_account hd ha (by simp; decide)

theorem join_blocks (hd : cacheDir.head? = some '/') (ha : IsComponent (pathEscape a))
    (hf : ∀ e ∈ fs, IsComponent e) : join (blocksRoot (blockCacheBase cacheDir a) :: fs) =
      render (accountDir cacheDir a ++ ("blocks".toList :: fs)) := by
  have hblocks : ∀ e ∈ accountDir cacheDir a ++ ["blocks".toList], IsComponent e :=
    components_append (components_accountDir ha) (by simp; decide)
  rw [blocksRoot_eq hd ha, join_rooted (head?_render _) hf, elements_render hblocks,
    List.append_assoc, List.singleton_append]

theorem path_eq (hd : cacheDir.head? = some '/') (ha : IsComponent (pathEscape a))
    (hf : f.Plain) :
    f.path (blockCacheBase cacheDir a) = render (accountDir cacheDir a ++ f.components) := by
  have hc := hf.components
  cases f with
  | anchor => exact join_account hd ha hc
  | block linkID revisionID index =>
    exact join_blocks hd ha fun e he => hc e (List.mem_cons_of_mem _ he)
  | thumbnail linkID revisionID => exact join_account hd ha hc

/-- An account that has a directory of its own. -/
def IsAccount (a : String) : Prop := a ≠ "" ∧ a ≠ "." ∧ a ≠ ".."

/-- The path is the directory or lies below it. -/
def Inside (d p : Path) : Prop := elements true d <+: elements true p

/-- The caches of all accounts keep out of each other's way: the account, the kind of a file and
its ids can be told from its path, and dropping a link removes exactly the blocks that this account
has cached of it. -/
theorem caches_apart (hd : cacheDir.head? = some '/') (ha : IsAccount a) (ha' : IsAccount a')
    (hf : f.Plain) (hf' : f'.Plain) {linkID : LinkID} (hl : IsComponent linkID.toList) :
    (f.path (blockCacheBase cacheDir a) = f'.path (blockCacheBase cacheDir a') ↔
      a = a' ∧ f = f') ∧
    (Inside (linkDir (blockCacheBase cacheDir a) linkID) (f'.path (blockCacheBase cacheDir a')) ↔
      a = a' ∧ ∃ revisionID index, f' = .block linkID revisionID index) := by
  have hc := isComponent_pathEscape.mpr ha
  have hc' := isComponent_pathEscape.mpr ha'
  have hall : ∀ e ∈ accountDir cacheDir a ++ f.components, IsComponent e :=
    components_append (components_accountDir hc) hf.components
  have hall' : ∀ e ∈ accountDir cacheDir a' ++ f'.components, IsComponent e :=
    components_append (components_accountDir hc') hf'.components
  have haccount : ∀ es es', accountDir cacheDir a ++ es = accountDir cacheDir a' ++ es' →
      a = a' ∧ es = es' := by
    intro es es' h
    simp only [accountDir, List.append_assoc, List.append_cancel_left_eq, List.cons_append,
      List.nil_append, List.cons.injEq, true_and] at h
    exact ⟨pathEscape_injective h.1, h.2⟩
  constructor
  · rw [path_eq hd hc hf, path_eq hd hc' hf']
    constructor
    · intro h
      obtain ⟨rfl, hcomponents⟩ := haccount _ _ (render_injective hall hall' h)
      exact ⟨rfl, CacheFile.components_injective hcomponents⟩
    · rintro ⟨rfl, rfl⟩
      rfl
  · have hlink : linkDir (blockCacheBase cacheDir a) linkID =
        render (accountDir cacheDir a ++ ["blocks".toList, linkID.toList]) :=
      join_blocks hd hc (by simpa using hl)
    have hblocks : ∀ e ∈ accountDir cacheDir a ++ ["blocks".toList, linkID.toList],
        IsComponent e := by
      refine components_append (components_accountDir hc) ?_
      have hblocks : IsComponent "blocks".toList := by decide
      simpa using ⟨hblocks, hl⟩
    rw [Inside, hlink, path_eq hd hc' hf', elements_render hblocks, elements_render hall']
    constructor
    · rintro ⟨rest, h⟩
      rw [List.append_assoc] at h
      obtain ⟨rfl, hcomponents⟩ := haccount _ _ h
      refine ⟨rfl, ?_⟩
      cases f' with
      | anchor => exact absurd (List.cons.inj hcomponents).1 (by decide)
      | block linkID' revisionID index =>
        simp only [CacheFile.components, List.cons_append, List.nil_append, List.cons.injEq,
          String.toList_inj, true_and] at hcomponents
        exact ⟨revisionID, index, by rw [hcomponents.1]⟩
      | thumbnail linkID' revisionID =>
        simp only [CacheFile.components, List.cons_append, List.cons.injEq] at hcomponents
        exact absurd hcomponents.1 (by decide)
    · rintro ⟨rfl, revisionID, index, rfl⟩
      exact ⟨[revisionID.toList, itoa index], by simp [CacheFile.components]⟩

theorem caches_apart_twoUsers :
    ¬Inside (linkDir (blockCacheBase "/home/u/.cache".toList "a@b.c") "link")
      ((CacheFile.block "link" "rev" 0).path (blockCacheBase "/home/u/.cache".toList "a@b/c")) := by
  have hplain : (CacheFile.block "link" "rev" 0).Plain := by
    constructor <;> decide
  have ha : IsAccount "a@b.c" := by
    refine ⟨?_, ?_, ?_⟩ <;> decide
  have ha' : IsAccount "a@b/c" := by
    refine ⟨?_, ?_, ?_⟩ <;> decide
  have hd : "/home/u/.cache".toList.head? = some '/' := by decide
  rw [(caches_apart hd ha ha' hplain hplain (by decide : IsComponent "link".toList)).2]
  rintro ⟨h, -⟩
  exact absurd h (by decide)

end Accounts

end ProtonDrive.CacheLayout
