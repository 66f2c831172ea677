import Mathlib.Tactic

/-
  Paths as characters, and where they lead from a directory.

  A directory is the list of names from the root. A slash in front starts over at the root, an
  empty component and a dot stay, two dots go up. `resolve_component`: a single component leads to
  the entry of that name in the directory, and nowhere else.
-/

namespace Paths

abbrev Name := List Char

/-- One component of a path. -/
def enter (dir : List Name) (c : Name) : List Name :=
  if c = [] ∨ c = ['.'] then dir
  else if c = ['.', '.'] then dir.dropLast
  else dir ++ [c]

/-- Where `dir.join(path)` leads. -/
def resolve (dir : List Name) (path : Name) : List Name :=
  (path.splitOnP (· = '/')).foldl enter (if path.head? = some '/' then [] else dir)

/-- What a file in a directory can be called. -/
structure Component (c : Name) : Prop where
  ne_nil : c ≠ []
  slash : '/' ∉ c
  nul : Char.ofNat 0 ∉ c
  dot : c ≠ ['.']
  dots : c ≠ ['.', '.']

theorem resolve_component {c : Name} (h : Component c) (dir : List Name) :
    resolve dir c = dir ++ [c] := by
  have hsplit : c.splitOnP (· = '/') = [c] :=
    List.splitOnP_eq_singleton fun x hx => decide_eq_false fun heq => h.slash (heq ▸ hx)
  have hhead : c.head? ≠ some '/' := fun heq => h.slash (List.mem_of_mem_head? heq)
  have hstay : ¬(c = [] ∨ c = ['.']) := not_or.mpr ⟨h.ne_nil, h.dot⟩
  rw [resolve, hsplit, if_neg hhead, List.foldl_cons, List.foldl_nil, enter, if_neg hstay,
    if_neg h.dots]

/-- A name that does not start with a dot is neither of the two special ones. -/
theorem component_of_head {c : Name} {x : Char} (hhead : c.head? = some x) (hdot : x ≠ '.')
    (hslash : '/' ∉ c) (hnul : Char.ofNat 0 ∉ c) : Component c where
  ne_nil hnil := by
    rw [hnil] at hhead
    cases hhead
  slash := hslash
  nul := hnul
  dot heq := by
    rw [heq] at hhead
    exact hdot (Option.some.inj hhead).symm
  dots heq := by
    rw [heq] at hhead
    exact hdot (Option.some.inj hhead).symm

end Paths
