import Mathlib.Data.List.Basic
import Mathlib.Data.List.TakeWhile
import Mathlib.Tactic.SplitIfs

/-!
# Lexical slash-separated paths

The path functions of Go's standard library: `clean`, `dir` and `base` work on the
text alone. A rooted clean path is the rendering of a list of components, and every
function is computed on that list. Nothing here refers to a file tree.
-/

namespace ProtonDrive.SlashPaths

abbrev Path := List Char

/-- One element of the split path. The stack holds the elements kept so far, last first. -/
def cleanStep (rooted : Bool) (stack : List Path) (e : Path) : List Path :=
  if e = [] ∨ e = ['.'] then stack
  else if e = ['.', '.'] then
    match stack with
    | [] => if rooted then [] else [e]
    | top :: rest => if top = ['.', '.'] then e :: top :: rest else rest
  else e :: stack

def elements (rooted : Bool) (p : Path) : List Path :=
  ((p.splitOn '/').foldl (cleanStep rooted) []).reverse

/-- A rooted path written from its components. -/
def render : List Path → Path
  | [] => ['/']
  | es => es.flatMap (fun e => '/' :: e)

/-- `path.Clean`: the shortest path equivalent by purely lexical processing. -/
def clean (p : Path) : Path :=
  if p.head? = some '/' then render (elements true p)
  else match elements false p with
    | [] => ['.']
    | es => (render es).tail

/-- `filepath.Join`: empty elements before the first other one are dropped. -/
def join (elems : List Path) : Path :=
  match elems.dropWhile (· = []) with
  | [] => []
  | es => clean (['/'].intercalate es)

/-- Everything up to and including the last slash. -/
def dirPart (p : Path) : Path := (p.reverse.dropWhile (· ≠ '/')).reverse

/-- `path.Dir`: all but the last element, cleaned. -/
def dir (p : Path) : Path := clean (dirPart p)

def trimRightSlash (p : Path) : Path := (p.reverse.dropWhile (· = '/')).reverse

/-- `path.Base`: the last element, trailing slashes removed. -/
def base (p : Path) : Path :=
  if p = [] then ['.']
  else match ((trimRightSlash p).reverse.takeWhile (· ≠ '/')).reverse with
    | [] => ['/']
    | e => e

/-- The absolute form under which paths are looked up. -/
def absolute (p : Path) : Path := clean ('/' :: p)

/-- `strings.TrimRight(dir, "/") + "/" + name`. -/
def child (d name : Path) : Path := trimRightSlash d ++ '/' :: name

/-- A path element that lexical processing keeps as it is. -/
structure IsComponent (e : Path) : Prop where
  nonempty : e ≠ []
  noSlash : '/' ∉ e
  notDot : e ≠ ['.']
  notDotDot : e ≠ ['.', '.']

instance (e : Path) : Decidable (IsComponent e) :=
  decidable_of_iff (e ≠ [] ∧ '/' ∉ e ∧ e ≠ ['.'] ∧ e ≠ ['.', '.'])
    ⟨fun h => ⟨h.1, h.2.1, h.2.2.1, h.2.2.2⟩, fun h => ⟨h.1, h.2, h.3, h.4⟩⟩

theorem components_concat {es : List Path} {e : Path} (hes : ∀ a ∈ es, IsComponent a)
    (he : IsComponent e) : ∀ a ∈ es ++ [e], IsComponent a := by
  intro a ha
  rcases List.mem_append.mp ha with ha | ha
  · exact hes a ha
  · exact List.mem_singleton.mp ha ▸ he

/-- Rooted and already clean. -/
def IsAbsolute (p : Path) : Prop := ∃ es, (∀ e ∈ es, IsComponent e) ∧ render es = p

section Components

theorem cleanStep_component {e : Path} (he : IsComponent e) (rooted : Bool) (stack : List Path) :
    cleanStep rooted stack e = e :: stack := by
  simp [cleanStep, he.nonempty, he.notDot, he.notDotDot]

@[simp] theorem cleanStep_nil (rooted : Bool) (stack : List Path) :
    cleanStep rooted stack [] = stack := by simp [cleanStep]

theorem cleanStep_components {stack : List Path} {e : Path} (hs : ∀ a ∈ stack, IsComponent a)
    (he : '/' ∉ e) : ∀ a ∈ cleanStep true stack e, IsComponent a := by
  by_cases h₁ : e = [] ∨ e = ['.']
  · simpa only [cleanStep, if_pos h₁] using hs
  by_cases h₂ : e = ['.', '.']
  · cases stack with
    | nil => simp [cleanStep, h₂]
    | cons top rest =>
      simp only [cleanStep, if_neg h₁, if_pos h₂, if_neg (hs top List.mem_cons_self).notDotDot]
      exact fun a ha => hs a (List.mem_cons_of_mem _ ha)
  · simp only [cleanStep, if_neg h₁, if_neg h₂]
    intro a ha
    rcases List.mem_cons.mp ha with rfl | ha
    · exact ⟨fun h => h₁ (.inl h), he, fun h => h₁ (.inr h), h₂⟩
    · exact hs a ha

theorem notMem_of_mem_splitOn {p e : Path} (he : e ∈ p.splitOn '/') : '/' ∉ e := by
  induction p generalizing e with
  | nil =>
    rw [List.splitOn_nil, List.mem_singleton] at he
    simp [he]
  | cons c p ih =>
    rw [List.splitOn_cons_eq_if_modifyHead] at he
    split_ifs at he with hc
    · rcases List.mem_cons.mp he with rfl | he
      · exact List.not_mem_nil
      · exact ih he
    · obtain ⟨w, ws, hw⟩ := List.exists_cons_of_ne_nil (List.splitOn_ne_nil '/' p)
      rw [hw, List.modifyHead_cons] at he
      have hc' : ¬('/' = c) := fun h => hc (beq_iff_eq.mpr h.symm)
      rcases List.mem_cons.mp he with rfl | he
      · simp only [List.mem_cons, not_or]
        exact ⟨hc', ih (hw ▸ List.mem_cons_self)⟩
      · exact ih (hw ▸ List.mem_cons_of_mem _ he)

private theorem foldl_components (es : List Path) (stack : List Path)
    (hs : ∀ a ∈ stack, IsComponent a) (he : ∀ e ∈ es, '/' ∉ e) :
    ∀ a ∈ es.foldl (cleanStep true) stack, IsComponent a := by
  induction es generalizing stack with
  | nil => exact hs
  | cons e es ih =>
    exact ih _ (cleanStep_components hs (he e List.mem_cons_self))
      (fun a ha => he a (List.mem_cons_of_mem _ ha))

/-- Rooted lexical processing leaves proper components only: no `..` survives the root. -/
theorem elements_components (p : Path) : ∀ e ∈ elements true p, IsComponent e := by
  intro e he
  exact foldl_components _ [] (by simp) (fun a ha => notMem_of_mem_splitOn ha) e
    (List.mem_reverse.mp he)

private theorem foldl_of_components (es stack : List Path) (he : ∀ e ∈ es, IsComponent e)
    (rooted : Bool) : es.foldl (cleanStep rooted) stack = es.reverse ++ stack := by
  induction es generalizing stack with
  | nil => rfl
  | cons e es ih =>
    rw [List.foldl_cons, cleanStep_component (he e List.mem_cons_self),
      ih _ (fun a ha => he a (List.mem_cons_of_mem _ ha))]
    simp

theorem splitOn_flatMap (es : List Path) (he : ∀ e ∈ es, '/' ∉ e) (hne : es ≠ []) :
    (es.flatMap (fun e => '/' :: e)).splitOn '/' = [] :: es := by
  induction es with
  | nil => exact absurd rfl hne
  | cons e es ih =>
    rw [List.flatMap_cons, List.cons_append, List.splitOn_cons_eq_if_modifyHead]
    simp only [BEq.rfl, if_true, List.cons.injEq, true_and]
    cases es with
    | nil => simpa using List.splitOn_eq_singleton (he e List.mem_cons_self)
    | cons a as =>
      rw [List.flatMap_cons, List.cons_append,
        List.splitOn_append_cons_self_of_not_mem (he e List.mem_cons_self)]
      have h := ih (fun x hx => he x (List.mem_cons_of_mem _ hx)) (by simp)
      rw [List.flatMap_cons, List.cons_append, List.splitOn_cons_eq_if_modifyHead] at h
      simpa using h

@[simp] theorem elements_slash_cons (p : Path) : elements true ('/' :: p) = elements true p := by
  simp [elements, List.splitOn_cons_eq_if_modifyHead]

@[simp] theorem elements_render {es : List Path} (he : ∀ e ∈ es, IsComponent e) :
    elements true (render es) = es := by
  cases es with
  | nil => rfl
  | cons e es =>
    rw [elements, render, splitOn_flatMap _ (fun a ha => (he a ha).noSlash) (by simp),
      List.foldl_cons, cleanStep_nil, foldl_of_components _ _ he]
    simp
    simp

theorem render_injective {es fs : List Path} (he : ∀ e ∈ es, IsComponent e)
    (hf : ∀ f ∈ fs, IsComponent f) (h : render es = render fs) : es = fs := by
  rw [← elements_render he, ← elements_render hf, h]

theorem absolute_eq_render (p : Path) : absolute p = render (elements true p) := by
  simp [absolute, clean]

@[simp] theorem elements_absolute (p : Path) : elements true (absolute p) = elements true p := by
  rw [absolute_eq_render, elements_render (elements_components p)]

theorem absolute_render {es : List Path} (he : ∀ e ∈ es, IsComponent e) :
    absolute (render es) = render es := by
  rw [absolute_eq_render, elements_render he]

@[simp] theorem absolute_absolute (p : Path) : absolute (absolute p) = absolute p := by
  rw [absolute_eq_render, elements_absolute, ← absolute_eq_render]

theorem IsAbsolute.absolute_eq {p : Path} (h : IsAbsolute p) : absolute p = p := by
  obtain ⟨es, he, rfl⟩ := h
  exact absolute_render he

theorem render_eq_root_iff {es : List Path} (he : ∀ e ∈ es, IsComponent e) :
    render es = ['/'] ↔ es = [] := by
  constructor
  · intro h
    exact render_injective he (by simp) h
  · rintro rfl; rfl

theorem render_ne_nil (es : List Path) : render es ≠ [] := by
  cases es <;> simp [render]

/-- Lexical processing adds no empty element. -/
theorem mem_cleanStep {rooted : Bool} {stack : List Path} {e a : Path}
    (h : a ∈ cleanStep rooted stack e) : a ∈ stack ∨ a = e ∧ e ≠ [] := by
  by_cases h₁ : e = [] ∨ e = ['.']
  · exact .inl (by simpa only [cleanStep, if_pos h₁] using h)
  have he : e ≠ [] := fun h => h₁ (.inl h)
  by_cases h₂ : e = ['.', '.']
  · cases stack with
    | nil =>
      cases rooted <;> simp only [cleanStep, if_neg h₁, if_pos h₂] at h
      · exact .inr ⟨List.mem_singleton.mp h, he⟩
      · cases h
    | cons top rest =>
      simp only [cleanStep, if_neg h₁, if_pos h₂] at h
      split_ifs at h
      · exact (List.mem_cons.mp h).symm.imp_right fun h => ⟨h, he⟩
      · exact .inl (List.mem_cons_of_mem _ h)
  · simp only [cleanStep, if_neg h₁, if_neg h₂] at h
    exact (List.mem_cons.mp h).symm.imp_right fun h => ⟨h, he⟩

private theorem foldl_nonempty (rooted : Bool) (es stack : List Path) (hs : ∀ a ∈ stack, a ≠ []) :
    ∀ a ∈ es.foldl (cleanStep rooted) stack, a ≠ [] := by
  induction es generalizing stack with
  | nil => exact hs
  | cons e es ih =>
    refine ih _ fun a ha => ?_
    rcases mem_cleanStep ha with ha | ⟨rfl, he⟩
    · exact hs a ha
    · exact he

theorem clean_ne_nil (p : Path) : clean p ≠ [] := by
  rw [clean]
  split_ifs
  · exact render_ne_nil _
  · cases he : elements false p with
    | nil => simp
    | cons e es =>
      have hne : e ≠ [] := foldl_nonempty false _ [] (by simp) e
        (List.mem_reverse.mp (he ▸ List.mem_cons_self))
      simp [render, hne]

theorem join_ne_nil {elems : List Path} (h : ∃ e ∈ elems, e ≠ []) : join elems ≠ [] := by
  rw [join]
  cases hd : elems.dropWhile (· = []) with
  | nil =>
    obtain ⟨e, he, hne⟩ := h
    rw [List.dropWhile_eq_nil_iff] at hd
    exact absurd (by simpa using hd e he) hne
  | cons e es => exact clean_ne_nil _

theorem IsAbsolute.ne_nil {p : Path} (h : IsAbsolute p) : p ≠ [] := by
  obtain ⟨es, -, rfl⟩ := h
  exact render_ne_nil es

end Components

section Children

theorem render_concat (es : List Path) (e : Path) :
    render (es ++ [e]) = es.flatMap (fun a => '/' :: a) ++ '/' :: e := by
  cases es with
  | nil => simp [render]
  | cons a as => simp [render]

theorem trimRightSlash_render {es : List Path} (he : ∀ e ∈ es, IsComponent e) :
    trimRightSlash (render es) = es.flatMap (fun e => '/' :: e) := by
  rcases es.eq_nil_or_concat' with rfl | ⟨es, e, rfl⟩
  · rfl
  · have hc : IsComponent e := he e (by simp)
    have hr : e.reverse.dropWhile (· = '/') = e.reverse := by
      cases h : e.reverse with
      | nil => rfl
      | cons c cs =>
        have hm : c ∈ e := List.mem_reverse.mp (h ▸ List.mem_cons_self)
        have hcs : c ≠ '/' := fun hs => hc.noSlash (hs ▸ hm)
        simp [hcs]
    have hl : e.reverse.dropWhile (· = '/') ≠ [] := by
      rw [hr]; simpa using hc.nonempty
    rw [render_concat, trimRightSlash, List.reverse_append, List.reverse_cons, List.append_assoc,
      List.dropWhile_append, if_neg (by simpa [List.isEmpty_iff] using hl), hr]
    simp

/-- Joining a name onto a clean directory is the concatenation of components, at the root too. -/
theorem child_render {es : List Path} (he : ∀ e ∈ es, IsComponent e) (name : Path) :
    child (render es) name = render (es ++ [name]) := by
  rw [child, trimRightSlash_render he, render_concat]

theorem dirPart_append_slash (p e : Path) (he : '/' ∉ e) :
    dirPart (p ++ '/' :: e) = p ++ ['/'] := by
  have hall : ∀ c ∈ e.reverse, decide (c ≠ '/') = true := by
    intro c hc
    have hm : c ∈ e := List.mem_reverse.mp hc
    exact decide_eq_true (fun h => he (h ▸ hm))
  rw [dirPart, List.reverse_append, List.reverse_cons, List.append_assoc,
    List.dropWhile_append_of_pos hall]
  simp

theorem elements_append_slash {es : List Path} (he : ∀ e ∈ es, IsComponent e) :
    elements true (es.flatMap (fun e => '/' :: e) ++ ['/']) = es := by
  have h := splitOn_flatMap (es ++ [[]]) (by
    intro e hm
    rcases List.mem_append.mp hm with hm | hm
    · exact (he e hm).noSlash
    · simp [List.mem_singleton.mp hm]) (by simp)
  have hf : (es ++ [[]]).flatMap (fun e => '/' :: e) =
      es.flatMap (fun e => '/' :: e) ++ ['/'] := by simp
  rw [elements, ← hf, h, List.foldl_cons, cleanStep_nil, List.foldl_append,
    foldl_of_components _ _ he]
  simp

/-- The parent of a child is the directory it was joined to. -/
theorem dir_render_concat {es : List Path} (he : ∀ e ∈ es, IsComponent e) {e : Path}
    (hs : '/' ∉ e) : dir (render (es ++ [e])) = render es := by
  have hh : (es.flatMap (fun a => '/' :: a) ++ ['/']).head? = some '/' := by
    cases es <;> simp
  rw [dir, render_concat, dirPart_append_slash _ _ hs, clean, if_pos hh, elements_append_slash he]

theorem dir_child {d name : Path} (hd : IsAbsolute d) (hn : '/' ∉ name) :
    dir (child d name) = d := by
  obtain ⟨es, he, rfl⟩ := hd
  rw [child_render he, dir_render_concat he hn]

theorem base_render_concat (es : List Path) {e : Path} (he : IsComponent e) :
    base (render (es ++ [e])) = e := by
  have ht : trimRightSlash (es.flatMap (fun a => '/' :: a) ++ '/' :: e) =
      es.flatMap (fun a => '/' :: a) ++ '/' :: e := by
    cases h : e.reverse with
    | nil => exact absurd (by simpa using h) he.nonempty
    | cons c cs =>
      have hm : c ∈ e := List.mem_reverse.mp (h ▸ List.mem_cons_self)
      have hcs : c ≠ '/' := fun hs => he.noSlash (hs ▸ hm)
      have hd : (es.flatMap (fun a => '/' :: a) ++ '/' :: e).reverse.dropWhile (· = '/') =
          (es.flatMap (fun a => '/' :: a) ++ '/' :: e).reverse := by
        rw [List.reverse_append, List.reverse_cons, h]
        simp [hcs]
      rw [trimRightSlash, hd, List.reverse_reverse]
  have hall : ∀ c ∈ e.reverse, decide (c ≠ '/') = true := by
    intro c hc
    have hm : c ∈ e := List.mem_reverse.mp hc
    exact decide_eq_true (fun h => he.noSlash (h ▸ hm))
  have hw : ((es.flatMap (fun a => '/' :: a) ++ '/' :: e).reverse.takeWhile (· ≠ '/')).reverse
      = e := by
    rw [List.reverse_append, List.reverse_cons, List.append_assoc,
      List.takeWhile_append_of_pos hall]
    simp
  rw [base, if_neg (render_ne_nil _), render_concat, ht, hw]
  cases e with
  | nil => exact absurd rfl he.nonempty
  | cons c cs => rfl

theorem isAbsolute_root : IsAbsolute ['/'] := ⟨[], by simp, rfl⟩

theorem IsAbsolute.child {d name : Path} (hd : IsAbsolute d) (hn : IsComponent name) :
    IsAbsolute (child d name) := by
  obtain ⟨es, he, rfl⟩ := hd
  refine ⟨es ++ [name], ?_, (child_render he name).symm⟩
  intro e hm
  rcases List.mem_append.mp hm with hm | hm
  · exact he e hm
  · exact List.mem_singleton.mp hm ▸ hn

theorem child_injective {d a b : Path} (h : SlashPaths.child d a = SlashPaths.child d b) :
    a = b := by
  simpa [SlashPaths.child] using h

/-- An absolute path other than the root is the child of its directory named by its base. -/
theorem IsAbsolute.cases {p : Path} (h : IsAbsolute p) :
    p = ['/'] ∨ ∃ es e, (∀ a ∈ es, IsComponent a) ∧ IsComponent e ∧ p = render (es ++ [e]) := by
  obtain ⟨es, he, rfl⟩ := h
  rcases es.eq_nil_or_concat' with rfl | ⟨es, e, rfl⟩
  · exact .inl rfl
  · exact .inr ⟨es, e, fun a ha => he a (by simp [ha]), he e (by simp), rfl⟩

theorem IsAbsolute.dir {p : Path} (h : IsAbsolute p) : IsAbsolute (dir p) := by
  rcases h.cases with rfl | ⟨es, e, he, hc, rfl⟩
  · exact isAbsolute_root
  · rw [dir_render_concat he hc.noSlash]
    exact ⟨es, he, rfl⟩

end Children

example : clean "/a//b/./c/..".toList = "/a/b".toList := by decide
example : dir "/a/b".toList = "/a".toList := by decide
example : base "/a/b/".toList = "b".toList := by decide

end ProtonDrive.SlashPaths
