import ProtonDrive.DriveSession

/-!
# What `InvalidatePath` removes

The two cache layers under `Session.InvalidatePath`: the metadata cache loses what it holds for
the path itself and the listing of its parent, the forward map all that lies below the path. Keys
are compared as strings, so the root and the empty path are cases of their own.
-/

namespace ProtonDrive.PathInvalidation
open SlashPaths KeyedMaps DriveApi MetaCache DriveSession

/-- A strict descendant: it continues the path after a slash, which the root ends with already. -/
def StrictlyBelow (p q : Path) : Prop :=
  if p = ['/'] then q.head? = some '/' ∧ q ≠ p else (p ++ ['/']).isPrefixOf q = true

instance (p q : Path) : Decidable (StrictlyBelow p q) :=
  inferInstanceAs (Decidable (if p = ['/'] then _ else _))

section Components

variable {es fs : List Path} {p q : Path}

theorem splitOn_append_slash (he : ∀ e ∈ es, '/' ∉ e) (r : Path) :
    (es.flatMap (fun e => '/' :: e) ++ '/' :: r).splitOn '/' = [] :: (es ++ r.splitOn '/') := by
  induction es with
  | nil => simp [List.splitOn_cons_eq_if_modifyHead]
  | cons e es ih =>
    have hrest := ih fun a ha => he a (List.mem_cons_of_mem _ ha)
    rw [List.flatMap_cons, List.append_assoc, List.cons_append,
      List.splitOn_cons_eq_if_modifyHead]
    simp only [BEq.rfl, if_true, List.cons_append, List.cons.injEq, true_and]
    -- what follows the first element starts with a slash
    cases es with
    | nil =>
      rw [List.flatMap_nil, List.nil_append,
        List.splitOn_append_cons_self_of_not_mem (he e List.mem_cons_self), List.nil_append]
    | cons a as =>
      rw [List.flatMap_cons, List.append_assoc, List.cons_append] at hrest ⊢
      rw [List.splitOn_append_cons_self_of_not_mem (he e List.mem_cons_self)]
      rw [List.splitOn_cons_eq_if_modifyHead] at hrest
      simpa using hrest

/-- For clean paths, a strict descendant is one with further components. -/
theorem strictlyBelow_render (he : ∀ e ∈ es, IsComponent e) (hf : ∀ f ∈ fs, IsComponent f) :
    StrictlyBelow (render es) (render fs) ↔ ∃ g gs, fs = es ++ g :: gs := by
  rw [StrictlyBelow]
  split_ifs with hroot
  · obtain rfl := (render_eq_root_iff he).mp hroot
    cases fs with
    | nil => simp [render]
    | cons f fs =>
      have hne : render (f :: fs) ≠ ['/'] := fun h => by simpa using (render_eq_root_iff hf).mp h
      rw [hroot]
      exact iff_of_true ⟨by simp [render], hne⟩ ⟨f, fs, rfl⟩
  · have hes : es ≠ [] := fun h => hroot ((render_eq_root_iff he).mpr h)
    have hrender : render es = es.flatMap (fun e => '/' :: e) := by
      cases es with
      | nil => exact absurd rfl hes
      | cons e es => rfl
    rw [hrender, List.isPrefixOf_iff_prefix]
    constructor
    · rintro ⟨r, hr⟩
      have hfs : fs ≠ [] := by
        rintro rfl
        obtain ⟨e, es', rfl⟩ := List.exists_cons_of_ne_nil hes
        simp [render] at hr
      have hsplit := congrArg (List.splitOn '/') hr
      rw [List.append_assoc, List.singleton_append,
        splitOn_append_slash fun e hm => (he e hm).noSlash] at hsplit
      obtain ⟨f, fs', rfl⟩ := List.exists_cons_of_ne_nil hfs
      have hlast : (render (f :: fs')).splitOn '/' = [] :: f :: fs' :=
        splitOn_flatMap _ (fun f hm => (hf f hm).noSlash) hfs
      rw [hlast] at hsplit
      obtain ⟨g, gs, hg⟩ := List.exists_cons_of_ne_nil (List.splitOn_ne_nil '/' r)
      rw [hg] at hsplit
      exact ⟨g, gs, (List.cons.inj hsplit).2.symm⟩
    · rintro ⟨g, gs, rfl⟩
      obtain ⟨e, es', rfl⟩ := List.exists_cons_of_ne_nil hes
      exact ⟨g ++ gs.flatMap (fun e => '/' :: e), by simp [render]⟩

end Components

variable {KR : Type} {p q : Path}

theorem lookup_invalidatePath (s : Session KR) (p q : Path) :
    (s.invalidatePath p).pathLinks.lookup q =
      if q = p ∨ (p ++ ['/']).isPrefixOf q = true then none else s.pathLinks.lookup q := by
  simp [Session.invalidatePath, lookup_dropKeys, Session.atOrBelow]

/-- The empty path takes every absolute path out of the forward map with it. -/
theorem lookup_invalidatePath_nil (s : Session KR) (hq : q.head? = some '/') :
    (s.invalidatePath []).pathLinks.lookup q = none := by
  obtain ⟨r, rfl⟩ : ∃ r, q = '/' :: r := by
    cases q with
    | nil => cases hq
    | cons c r => exact ⟨r, by rw [Option.some.inj hq]⟩
  rw [lookup_invalidatePath, if_pos (.inr (by simp))]

/-- The root takes none of its clean descendants out of the forward map. -/
theorem lookup_invalidatePath_root (s : Session KR) (hq : IsAbsolute q) (hne : q ≠ ['/']) :
    (s.invalidatePath ['/']).pathLinks.lookup q = s.pathLinks.lookup q := by
  rw [lookup_invalidatePath, if_neg]
  rintro (h | h)
  · exact hne h
  · obtain ⟨fs, hf, rfl⟩ := hq
    obtain ⟨r, hr⟩ := List.isPrefixOf_iff_prefix.mp h
    obtain ⟨f, fs, rfl⟩ := List.exists_cons_of_ne_nil
      (fun hnil => hne ((render_eq_root_iff hf).mpr hnil))
    -- the first component of a clean path is not empty
    obtain ⟨c, cs, rfl⟩ := List.exists_cons_of_ne_nil (hf f List.mem_cons_self).nonempty
    have hc : c = '/' := by
      have h1 : ('/' :: '/' :: r)[1]? = ('/' :: c :: (cs ++ _))[1]? := congrArg (·[1]?) hr
      simpa [eq_comm] using h1
    exact (hf _ List.mem_cons_self).noSlash (hc ▸ List.mem_cons_self)

/-- The metadata cache loses the entries of the path itself and the listing of its parent, and
nothing when the path is empty; the forward map loses a path that is not empty, with all that lies
below it unless it is the root, and nothing else. -/
theorem invalidatePath_exact (s : Session KR) (p q : Path) :
    let s' := s.invalidatePath p
    { s' with metaCache := s.metaCache, pathLinks := s.pathLinks } = s ∧
      (p = [] → s'.metaCache = s.metaCache) ∧
      (p ≠ [] →
        s'.metaCache.stats.lookup q = (if q = p then none else s.metaCache.stats.lookup q) ∧
        s'.metaCache.lists.lookup q =
          (if q = p ∨ q = dir p then none else s.metaCache.lists.lookup q) ∧
        (q = p → s'.pathLinks.lookup q = none) ∧
        (StrictlyBelow p q → p ≠ ['/'] → s'.pathLinks.lookup q = none) ∧
        (q ≠ p → ¬ StrictlyBelow p q → s'.pathLinks.lookup q = s.pathLinks.lookup q)) := by
  intro s'
  refine ⟨rfl, ?_, ?_⟩
  · rintro rfl
    rfl
  · intro hp
    refine ⟨by simp [s', Session.invalidatePath, hp], by simp [s', Session.invalidatePath, hp],
      ?_, ?_, ?_⟩
    · rintro rfl
      rw [lookup_invalidatePath, if_pos (.inl rfl)]
    · intro hb hroot
      rw [StrictlyBelow, if_neg hroot] at hb
      rw [lookup_invalidatePath, if_pos (.inr hb)]
    · intro hq hb
      rw [lookup_invalidatePath, if_neg]
      rintro (h | h)
      · exact hq h
      · refine hb ?_
        rw [StrictlyBelow]
        split_ifs with hroot
        · obtain ⟨r, hr⟩ := List.isPrefixOf_iff_prefix.mp h
          subst hroot hr
          exact ⟨rfl, hq⟩
        · exact h

/-- A session that has listed a directory and statted what is in it. -/
def visited : Session Unit :=
  Session.setStat (World.steady (serverOf [])) (newSession "root" none) "/a/b".toList
    (plainFile "b" "a" "b" 1 "r") ()

/-- The stat of a descendant stays. -/
theorem invalidatePath_keeps_descendant :
    StrictlyBelow "/a".toList "/a/b".toList ∧
      ((visited.invalidatePath "/a".toList).metaCache.stats.lookup "/a/b".toList).isSome := by
  decide +kernel

end ProtonDrive.PathInvalidation
