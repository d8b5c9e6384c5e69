import Mathlib.Data.List.Induction
import Mathlib.Data.List.TakeWhile
import Mathlib.Tactic.Common

/-!
Paths as lists of names: what a path denotes by its names alone, where one of
them stands for the parent, and texts whose names stand between separators.
-/

namespace ULib.LexicalPath

section Resolution

-- `parent` is the name of the parent; an absolute path has none at its root
variable {ν : Type*} (parent : ν) (absolute : Bool)

/-- Parents stand in front only, and only in relative paths. -/
def Settled (names : List ν) : Prop :=
  ∀ a b, names = a ++ parent :: b → absolute = false ∧ ∀ m ∈ a, m = parent

variable [DecidableEq ν]

/-- What is left of the names that were kept, and one more. -/
def enter (kept : List ν) (n : ν) : List ν :=
  if n ≠ parent then kept ++ [n]
  else
    match kept.getLast? with
    | none => if absolute then [] else [parent]
    | some m => if m = parent then kept ++ [parent] else kept.dropLast

/-- The names of the place -/
def resolve (names : List ν) : List ν := names.foldl (enter parent absolute) []

variable {parent absolute} {kept names : List ν} {n m : ν}

theorem enter_name (h : n ≠ parent) : enter parent absolute kept n = kept ++ [n] := if_pos h

theorem enter_parent_nil :
    enter parent absolute [] parent = if absolute then [] else [parent] := by
  rw [enter, if_neg (not_not.mpr rfl)]
  rfl

/-- Every name is kept in front of a relative path. -/
theorem enter_relative_nil (n : ν) : enter parent false [] n = [n] := by
  by_cases hn : n = parent
  · subst hn
    rw [enter_parent_nil]
    rfl
  · exact enter_name hn

theorem enter_parent_concat : enter parent absolute (kept ++ [m]) parent =
    if m = parent then kept ++ [m] ++ [parent] else kept := by
  rw [enter, if_neg (not_not.mpr rfl), List.getLast?_concat]
  dsimp only
  rw [List.dropLast_concat]

omit [DecidableEq ν] in
theorem settled_nil : Settled parent absolute [] := by
  intro a b h
  exact absurd h (by simp)

omit [DecidableEq ν] in
theorem Settled.of_append {b : List ν} (h : Settled parent absolute (kept ++ b)) :
    Settled parent absolute kept := by
  intro a c heq
  refine h a (c ++ b) ?_
  rw [heq, List.append_assoc]
  rfl

omit [DecidableEq ν] in
theorem settled_concat (h : Settled parent absolute kept) (hn : n ≠ parent) :
    Settled parent absolute (kept ++ [n]) := by
  intro a b heq
  rcases List.eq_nil_or_concat b with rfl | ⟨c, x, rfl⟩
  · exact absurd (List.append_inj' heq rfl).2 (by simpa using hn)
  · refine h a c ?_
    rw [List.concat_eq_append, ← List.cons_append, ← List.append_assoc] at heq
    exact (List.append_inj' heq rfl).1

omit [DecidableEq ν] in
theorem settled_parents (h : Settled parent false (kept ++ [parent])) :
    Settled parent false (kept ++ [parent] ++ [parent]) := by
  intro a b heq
  refine ⟨rfl, ?_⟩
  have hkept : ∀ m ∈ kept ++ [parent], m = parent := by
    have hfront := (h kept [] rfl).2
    intro m hm
    rcases List.mem_append.mp hm with hm | hm
    · exact hfront m hm
    · exact List.mem_singleton.mp hm
  rcases List.eq_nil_or_concat b with rfl | ⟨c, x, rfl⟩
  · rw [← (List.append_inj' heq rfl).1]
    exact hkept
  · rw [List.concat_eq_append, ← List.cons_append, ← List.append_assoc] at heq
    intro m hm
    refine hkept m ?_
    rw [(List.append_inj' heq rfl).1]
    exact List.mem_append_left _ hm

theorem settled_enter (h : Settled parent absolute kept) (n : ν) :
    Settled parent absolute (enter parent absolute kept n) := by
  by_cases hn : n = parent
  · subst hn
    rcases List.eq_nil_or_concat kept with rfl | ⟨front, m, rfl⟩
    · rw [enter_parent_nil]
      cases absolute with
      | true => exact settled_nil
      | false =>
          intro a b heq
          refine ⟨rfl, ?_⟩
          rcases List.cons_eq_append_iff.mp heq with ⟨rfl, -⟩ | ⟨a', rfl, hnil⟩
          · exact nofun
          · exact absurd hnil (by simp)
    · rw [List.concat_eq_append] at h ⊢
      rw [enter_parent_concat]
      split_ifs with hm
      · subst hm
        obtain ⟨rfl, -⟩ := h front [] rfl
        exact settled_parents h
      · exact h.of_append
  · rw [enter_name hn]
    exact settled_concat h hn

theorem settled_relative (n : ν) : Settled parent false [n] := by
  have h : Settled parent false (enter parent false [] n) := settled_enter settled_nil n
  rwa [enter_relative_nil] at h

theorem settled_foldl (h : Settled parent absolute kept) (names : List ν) :
    Settled parent absolute (names.foldl (enter parent absolute) kept) := by
  induction names generalizing kept with
  | nil => exact h
  | cons n names ih => exact ih (settled_enter h n)

theorem settled_resolve (names : List ν) :
    Settled parent absolute (resolve parent absolute names) :=
  settled_foldl settled_nil names

/-- A settled path denotes its own names. -/
theorem resolve_settled (h : Settled parent absolute names) :
    resolve parent absolute names = names := by
  induction names using List.reverseRecOn with
  | nil => rfl
  | append_singleton front n ih =>
      have hfront := ih h.of_append
      rw [resolve, List.foldl_append, ← resolve, hfront, List.foldl_cons, List.foldl_nil]
      by_cases hn : n = parent
      · subst hn
        obtain ⟨rfl, hall⟩ := h front [] rfl
        rcases List.eq_nil_or_concat front with rfl | ⟨front, m, rfl⟩
        · rw [enter_parent_nil]
          rfl
        · rw [List.concat_eq_append] at hall ⊢
          rw [enter_parent_concat, if_pos (hall m (by simp))]
      · exact enter_name hn

/-- What is kept is made of the names. -/
theorem mem_foldl_enter {kept : List ν} (h : m ∈ names.foldl (enter parent absolute) kept) :
    m ∈ kept ∨ m ∈ names := by
  induction names generalizing kept with
  | nil => exact .inl h
  | cons n names ih =>
      rcases ih h with hm | hm
      · by_cases hn : n = parent
        · subst hn
          rcases List.eq_nil_or_concat kept with rfl | ⟨front, l, rfl⟩
          · rw [enter_parent_nil] at hm
            split_ifs at hm
            · exact absurd hm List.not_mem_nil
            · rw [List.mem_singleton.mp hm]
              exact .inr List.mem_cons_self
          · rw [List.concat_eq_append] at hm ⊢
            rw [enter_parent_concat] at hm
            split_ifs at hm with hl
            · rcases List.mem_append.mp hm with hm | hm
              · exact .inl hm
              · rw [List.mem_singleton.mp hm]
                exact .inr List.mem_cons_self
            · exact .inl (List.mem_append_left _ hm)
        · rw [enter_name hn] at hm
          rcases List.mem_append.mp hm with hm | hm
          · exact .inl hm
          · rw [List.mem_singleton.mp hm]
            exact .inr List.mem_cons_self
      · exact .inr (List.mem_cons_of_mem n hm)

theorem mem_resolve (h : m ∈ resolve parent absolute names) : m ∈ names :=
  (mem_foldl_enter h).resolve_left List.not_mem_nil

omit [DecidableEq ν] in
theorem Settled.parent_notMem (h : Settled parent true names) : parent ∉ names := by
  intro hmem
  obtain ⟨a, b, heq⟩ := List.append_of_mem hmem
  exact absurd (h a b heq).1 Bool.noConfusion

/-! ### Paths below a directory -/

variable (parent names) in
/-- How many directories a relative path goes up. -/
def climbed : Nat := ((resolve parent false names).takeWhile (· = parent)).length

variable (parent names) in
/-- The names of a relative path below the directory to which it goes up. -/
def below : List ν := (resolve parent false names).dropWhile (· = parent)

theorem climbed_below {up : Nat} {rest : List ν} (hrest : parent ∉ rest)
    (h : resolve parent false names = List.replicate up parent ++ rest) :
    climbed parent names = up ∧ below parent names = rest := by
  have hall : ∀ m ∈ List.replicate up parent, decide (m = parent) = true := fun m hm =>
    decide_eq_true (List.eq_of_mem_replicate hm)
  have hstop : rest.takeWhile (· = parent) = [] ∧ rest.dropWhile (· = parent) = rest := by
    cases rest with
    | nil => exact ⟨rfl, rfl⟩
    | cons m rest =>
        have hm : decide (m = parent) = false :=
          decide_eq_false fun h => hrest (h ▸ List.mem_cons_self)
        exact ⟨List.takeWhile_cons_of_neg (by rw [hm]; decide),
          List.dropWhile_cons_of_neg (by rw [hm]; decide)⟩
  rw [climbed, below, h, List.takeWhile_append_of_pos hall, List.dropWhile_append_of_pos hall,
    hstop.1, hstop.2, List.append_nil, List.length_replicate]
  exact ⟨rfl, rfl⟩

/-- From an absolute directory, a path leads to what is left of the directory
when it has gone up, and to its names below that. -/
theorem foldl_enter_climbed {root : List ν} (hroot : parent ∉ root) (names : List ν) :
    names.foldl (enter parent true) root =
      root.take (root.length - climbed parent names) ++ below parent names := by
  suffices h : ∃ up rest, resolve parent false names = List.replicate up parent ++ rest ∧
      parent ∉ rest ∧ names.foldl (enter parent true) root =
        root.take (root.length - up) ++ rest by
    obtain ⟨up, rest, heq, hrest, hfold⟩ := h
    obtain ⟨rfl, rfl⟩ := climbed_below hrest heq
    exact hfold
  induction names using List.reverseRecOn with
  | nil => exact ⟨0, [], rfl, List.not_mem_nil, by simp⟩
  | append_singleton names n ih =>
      obtain ⟨up, rest, heq, hrest, hfold⟩ := ih
      have hstep : resolve parent false (names ++ [n]) =
          enter parent false (List.replicate up parent ++ rest) n := by
        rw [← heq, resolve, resolve, List.foldl_append]
        rfl
      rw [hstep, List.foldl_append, hfold, List.foldl_cons, List.foldl_nil]
      by_cases hn : n = parent
      · subst hn
        rcases List.eq_nil_or_concat rest with rfl | ⟨front, m, rfl⟩
        · refine ⟨up + 1, [], ?_, List.not_mem_nil, ?_⟩
          · rw [List.append_nil, List.append_nil]
            cases up with
            | zero => exact enter_parent_nil
            | succ up =>
                rw [List.replicate_succ' (n := up), enter_parent_concat, if_pos rfl,
                  ← List.replicate_succ', ← List.replicate_succ']
          · rw [List.append_nil, List.append_nil, ← Nat.sub_sub]
            cases hleft : root.length - up with
            | zero =>
                rw [List.take_zero, enter_parent_nil, if_pos rfl]
            | succ left =>
                have hlt : left < root.length := by omega
                have hne : root[left] ≠ n := fun h => hroot (h ▸ List.getElem_mem hlt)
                rw [List.take_succ_eq_append_getElem hlt, enter_parent_concat, if_neg hne,
                  Nat.add_sub_cancel]
        · rw [List.concat_eq_append] at hrest ⊢
          obtain ⟨hfront, hm⟩ := not_or.mp (mt List.mem_append.mpr hrest)
          have hne : m ≠ n := fun h => hm (List.mem_singleton.mpr h.symm)
          rw [← List.append_assoc, ← List.append_assoc, enter_parent_concat, enter_parent_concat,
            if_neg hne, if_neg hne]
          exact ⟨up, front, rfl, hfront, rfl⟩
      · rw [enter_name hn, enter_name hn, List.append_assoc, List.append_assoc]
        refine ⟨up, rest ++ [n], rfl, ?_, rfl⟩
        rw [List.mem_append, List.mem_singleton, not_or]
        exact ⟨hrest, Ne.symm hn⟩

end Resolution

/-! ### Separators -/

section Separators

variable {α : Type*} (sep : α)

/-- The pieces, each behind a separator -/
def separated (pieces : List (List α)) : List α := pieces.flatMap (sep :: ·)

variable {sep} {first : List α} {pieces : List (List α)}

@[simp] theorem separated_nil : separated sep [] = [] := rfl

theorem separated_cons (p : List α) (pieces : List (List α)) :
    separated sep (p :: pieces) = sep :: (p ++ separated sep pieces) := rfl

theorem separated_append (a b : List (List α)) :
    separated sep (a ++ b) = separated sep a ++ separated sep b := List.flatMap_append

/-- Every text is made of pieces without separators. -/
theorem exists_pieces (t : List α) :
    ∃ first pieces, t = first ++ separated sep pieces ∧ sep ∉ first ∧ ∀ p ∈ pieces, sep ∉ p := by
  induction t with
  | nil => exact ⟨[], [], rfl, List.not_mem_nil, nofun⟩
  | cons c t ih =>
      obtain ⟨first, pieces, rfl, hfirst, hpieces⟩ := ih
      by_cases hc : c = sep
      · subst hc
        exact ⟨[], first :: pieces, rfl, List.not_mem_nil,
          List.forall_mem_cons.mpr ⟨hfirst, hpieces⟩⟩
      · refine ⟨c :: first, pieces, rfl, ?_, hpieces⟩
        rw [List.mem_cons, not_or]
        exact ⟨Ne.symm hc, hfirst⟩

variable [DecidableEq α]

theorem all_ne {t : List α} (h : sep ∉ t) : ∀ c ∈ t, decide (c ≠ sep) = true := by
  intro c hc
  refine decide_eq_true ?_
  rintro rfl
  exact h hc

/-- A piece ends at a separator, or at the end of the text. -/
theorem span_piece {t u : List α} (ht : sep ∉ t) (hu : u = [] ∨ u.head? = some sep) :
    (t ++ u).takeWhile (· ≠ sep) = t ∧ (t ++ u).dropWhile (· ≠ sep) = u := by
  rw [List.takeWhile_append_of_pos (all_ne ht), List.dropWhile_append_of_pos (all_ne ht)]
  cases u with
  | nil => exact ⟨List.append_nil t, rfl⟩
  | cons c u =>
      obtain rfl := Option.some.inj (hu.resolve_left (List.cons_ne_nil c u))
      rw [List.takeWhile_cons_of_neg (by simp), List.dropWhile_cons_of_neg (by simp),
        List.append_nil]
      exact ⟨rfl, rfl⟩

theorem splitOn_pieces (hfirst : sep ∉ first) (hpieces : ∀ p ∈ pieces, sep ∉ p) :
    (first ++ separated sep pieces).splitOn sep = first :: pieces := by
  induction pieces generalizing first with
  | nil => rw [separated_nil, List.append_nil, List.splitOn_eq_singleton hfirst]
  | cons p pieces ih =>
      obtain ⟨hp, hpieces⟩ := List.forall_mem_cons.mp hpieces
      rw [separated_cons, List.splitOn_append_cons_self_of_not_mem hfirst, ih hp hpieces]

/-- Without the pieces `x` that have another one behind them -/
def dropInner (x : List α) : List (List α) → List (List α)
  | [] => []
  | [p] => [p]
  | p :: q :: pieces =>
      if p = x then dropInner x (q :: pieces) else p :: dropInner x (q :: pieces)

theorem mem_dropInner {x p : List α} (h : p ∈ dropInner x pieces) : p ∈ pieces := by
  fun_induction dropInner x pieces with
  | case1 => exact h
  | case2 => exact h
  | case3 q pieces ih => exact List.mem_cons_of_mem _ (ih h)
  | case4 q r pieces hq ih =>
      rcases List.mem_cons.mp h with rfl | h
      · exact List.mem_cons_self
      · exact List.mem_cons_of_mem _ (ih h)

theorem dropInner_eq_nil {x : List α} (h : dropInner x pieces = []) : pieces = [] := by
  fun_induction dropInner x pieces with
  | case1 => rfl
  | case2 => exact h
  | case3 q pieces ih => exact absurd (ih h) (List.cons_ne_nil q pieces)
  | case4 q r pieces hq ih => exact absurd h (List.cons_ne_nil _ _)

theorem filter_dropInner {x : List α} {good : List α → Bool} (hx : good x = false) :
    (dropInner x pieces).filter good = pieces.filter good := by
  fun_induction dropInner x pieces with
  | case1 => rfl
  | case2 => rfl
  | case3 q pieces ih =>
      rw [ih]
      exact (List.filter_cons_of_neg (by rw [hx]; exact Bool.false_ne_true)).symm
  | case4 p q pieces hp ih => rw [List.filter_cons, List.filter_cons, ih]

theorem mem_dropLast_dropInner {x p : List α} (h : p ∈ (dropInner x pieces).dropLast) :
    p ∈ pieces.dropLast := by
  fun_induction dropInner x pieces with
  | case1 => exact h
  | case2 => exact h
  | case3 q pieces ih => exact List.mem_cons_of_mem _ (ih h)
  | case4 q r pieces hq ih =>
      cases hrest : dropInner x (r :: pieces) with
      | nil =>
          rw [hrest] at h
          exact absurd h List.not_mem_nil
      | cons y ys =>
          rw [hrest, List.dropLast_cons_cons] at h
          rcases List.mem_cons.mp h with rfl | h
          · exact List.mem_cons_self
          · rw [hrest] at ih
            exact List.mem_cons_of_mem _ (ih h)

/-- What is left in front of the last piece is not `x`. -/
theorem ne_of_mem_dropLast_dropInner {x p : List α} (h : p ∈ (dropInner x pieces).dropLast) :
    p ≠ x := by
  fun_induction dropInner x pieces with
  | case1 => exact absurd h List.not_mem_nil
  | case2 => exact absurd h List.not_mem_nil
  | case3 q pieces ih => exact ih h
  | case4 q r pieces hq ih =>
      cases hrest : dropInner x (r :: pieces) with
      | nil =>
          rw [hrest] at h
          exact absurd h List.not_mem_nil
      | cons y ys =>
          rw [hrest, List.dropLast_cons_cons] at h
          rcases List.mem_cons.mp h with rfl | h
          · exact hq
          · rw [hrest] at ih
            exact ih h

end Separators

end ULib.LexicalPath
