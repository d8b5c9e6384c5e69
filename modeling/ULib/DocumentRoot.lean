import ULib.CanonicalPath

/-!
The path of a request in `utility/uhttp.cpp`: the URI is put behind the working
directory, and `UHTTP::checkPath` makes the path canonical and lets
`UServer_Base::isFileInsideDocumentRoot` say whether it is below the document
root. Only the lengths are compared there.
-/

namespace ULib.DocumentRoot

open ULib.KeyComparison
open ULib.LexicalPath
open ULib.CanonicalPath

/-- What becomes of a request: it is refused, it is for the document root
itself, or it is for a file. -/
inductive Checked where
  | forbidden
  | root
  | file (path : Bytes)
  deriving DecidableEq, Repr

/-- `u_canonicalize_pathname` works on the C string, which the length follows
if it was changed. -/
def canonicalPathname (pathname : Bytes) : Bytes :=
  let r := canonicalize (pathname.takeWhile (· ≠ 0))
  if r.modified then r.path else pathname

def isFileInsideDocumentRoot (documentRoot path : Bytes) : Bool :=
  documentRoot.length ≤ path.length

/-- `checkPath`, up to where the file is looked for -/
def checkPath (documentRoot cwd pathname : Bytes) : Checked :=
  let pathname := canonicalPathname pathname
  if isFileInsideDocumentRoot documentRoot pathname = false then .forbidden
  else if pathname.length = cwd.length then .root
  else .file pathname

/-- The path that is checked for a URI, which is written behind `u_cwd` -/
def checkUri (documentRoot cwd uri : Bytes) : Checked := checkPath documentRoot cwd (cwd ++ uri)

/-! ### Where a URI leads -/

/-- The directories that a URI leaves behind when it goes up. -/
def left (cwd uri : Bytes) : List Bytes :=
  (names cwd).drop ((names cwd).length - climbed parent (names uri))

/-- The names of the place to which a URI leads. -/
def target (cwd uri : Bytes) : List Bytes :=
  (names cwd).take ((names cwd).length - climbed parent (names uri)) ++ below parent (names uri)

/-- The working directory is an absolute path in the canonical form. -/
structure IsDirectory (cwd : Bytes) : Prop where
  absolute : isAbsolute cwd = true
  canonical : (canonicalize cwd).path = cwd
  terminated : 0 ∉ cwd

variable {documentRoot cwd uri : Bytes}

theorem names_append (huri : isAbsolute uri = true) :
    names (cwd ++ uri) = names cwd ++ names uri := by
  obtain ⟨first, pieces, rfl, hfirst, hpieces⟩ := @exists_pieces UInt8 slash cwd
  obtain ⟨first', pieces', rfl, hfirst', hpieces'⟩ := @exists_pieces UInt8 slash uri
  have hne : first' ++ separated slash pieces' ≠ [] := fun h => by
    rw [h] at huri
    cases huri
  rw [isAbsolute_pieces hfirst' hne] at huri
  obtain rfl : first' = [] := of_decide_eq_true huri
  have hboth : ∀ p ∈ pieces ++ pieces', slash ∉ p := fun p hp =>
    (List.mem_append.mp hp).elim (hpieces p) (hpieces' p)
  rw [List.append_assoc, List.nil_append, ← separated_append, names, names, names, components,
    components, components, splitOn_pieces hfirst hboth, splitOn_pieces hfirst hpieces,
    ← List.nil_append (separated slash pieces'), splitOn_pieces hfirst' hpieces',
    ← List.cons_append, List.filter_append, List.filter_cons_of_neg (a := []) (by decide)]

theorem isAbsolute_append (hcwd : isAbsolute cwd = true) (t : Bytes) :
    isAbsolute (cwd ++ t) = true := by
  cases cwd with
  | nil => cases hcwd
  | cons c cwd => exact hcwd

theorem isName_names (path : Bytes) : ∀ n ∈ names path, IsName n := fun _ hn =>
  isName_of_mem_names hn

theorem IsDirectory.spec (h : IsDirectory cwd) : parent ∉ names cwd ∧
    resolve parent true (names cwd) = names cwd ∧ cwd = render true (names cwd) := by
  have hne : cwd ≠ [] := fun hnil => by
    have := h.absolute
    rw [hnil] at this
    cases this
  have hrender := canonicalize_path hne
  rw [h.canonical, h.absolute] at hrender
  have hsettled : Settled parent true (resolve parent true (names cwd)) := settled_resolve _
  have hnames : names cwd = resolve parent true (names cwd) := by
    conv_lhs => rw [hrender]
    exact names_render fun n hn => isName_names cwd n (mem_resolve hn)
  rw [← hnames] at hsettled hrender
  exact ⟨hsettled.parent_notMem, hnames.symm, hrender⟩

/-- The path that is checked leads where the URI leads from the working
directory. -/
theorem canonicalPathname_append (hcwd : IsDirectory cwd) (huri : isAbsolute uri = true)
    (hnul : 0 ∉ uri) : canonicalPathname (cwd ++ uri) = render true (target cwd uri) := by
  obtain ⟨hparent, hresolve, -⟩ := hcwd.spec
  have hterminated : 0 ∉ cwd ++ uri := fun h =>
    (List.mem_append.mp h).elim hcwd.terminated hnul
  have hstring : (cwd ++ uri).takeWhile (· ≠ 0) = cwd ++ uri :=
    List.takeWhile_eq_self_iff.mpr fun c hc =>
      decide_eq_true fun hzero => hterminated (hzero ▸ hc)
  have hne : cwd ++ uri ≠ [] := fun h => by
    have habsolute := isAbsolute_append hcwd.absolute uri
    rw [h] at habsolute
    cases habsolute
  have hpath : (canonicalize (cwd ++ uri)).path = render true (target cwd uri) := by
    rw [canonicalize_path hne, isAbsolute_append hcwd.absolute, names_append huri, resolve,
      List.foldl_append, ← resolve, hresolve, foldl_enter_climbed hparent]
    rfl
  obtain ⟨-, -, hmodified, -⟩ := canonicalize_canonical (cwd ++ uri)
  rw [canonicalPathname, hstring]
  split
  · exact hpath
  · rename_i hsame
    rw [← hpath]
    by_contra hdiffer
    exact hsame (hmodified.mpr fun h => hdiffer h.symm)

/-! ### Lengths -/

/-- The text of names below a directory -/
def depth (l : List Bytes) : Nat := (separated slash l).length

theorem depth_append (l l' : List Bytes) : depth (l ++ l') = depth l + depth l' := by
  rw [depth, separated_append, List.length_append]
  rfl

theorem depth_spec {l : List Bytes} (hl : ∀ n ∈ l, IsName n) :
    l = [] ∧ depth l = 0 ∨ l ≠ [] ∧ 2 ≤ depth l := by
  cases l with
  | nil => exact .inl ⟨rfl, rfl⟩
  | cons n l =>
      have hn := List.length_pos_of_ne_nil (hl n List.mem_cons_self).ne_nil
      refine .inr ⟨List.cons_ne_nil n l, ?_⟩
      rw [depth, separated_cons, List.length_cons, List.length_append]
      omega

theorem length_render {l : List Bytes} (hl : ∀ n ∈ l, IsName n) :
    (render true l).length = max 1 (depth l) := by
  rcases depth_spec hl with ⟨rfl, hzero⟩ | ⟨hne, hdepth⟩
  · rw [hzero]
    rfl
  · rw [max_eq_right (by omega), render_of_ne hne]
    cases l with
    | nil => exact absurd rfl hne
    | cons n l => rfl

theorem isName_target (cwd uri : Bytes) : ∀ n ∈ target cwd uri, IsName n := by
  intro n hn
  rcases List.mem_append.mp hn with hn | hn
  · exact isName_names cwd n (List.mem_of_mem_take hn)
  · exact isName_names uri n (mem_resolve ((List.dropWhile_sublist _).mem hn))

/-- The path is shorter than the working directory exactly if what the URI
names is shorter than what it leaves behind. -/
theorem length_target (hcwd : IsDirectory cwd) (uri : Bytes) :
    ((render true (target cwd uri)).length < cwd.length ↔
      depth (below parent (names uri)) < depth (left cwd uri)) ∧
    ((render true (target cwd uri)).length = cwd.length ↔
      depth (below parent (names uri)) = depth (left cwd uri)) := by
  obtain ⟨-, -, hrender⟩ := hcwd.spec
  have hsplit : names cwd = (names cwd).take ((names cwd).length - climbed parent (names uri)) ++
      left cwd uri := (List.take_append_drop _ _).symm
  have hlength : cwd.length = max 1 (depth (names cwd)) :=
    (congrArg List.length hrender).trans (length_render (isName_names cwd))
  rw [hsplit, depth_append] at hlength
  rw [hlength, length_render (isName_target cwd uri), target, depth_append]
  have hcwd_depth := depth_spec (isName_names cwd)
  have htarget_depth := depth_spec (isName_target cwd uri)
  rw [hsplit, depth_append] at hcwd_depth
  rw [target, depth_append] at htarget_depth
  omega

end ULib.DocumentRoot
