/-
`SearchTextExecutor` of `modules/tools/executor.py` over the orders in which an operating
system may enumerate one tree: which lines are matched, in which order, and when the
result is said to be truncated.

The paths are sorted by their case-folded text, so paths that fold alike come in the order
of the enumeration. `BoundedScan` says when that order does not matter; `splitlines` ends a
line at more characters than a query is kept from holding.
-/
import Mathlib.Data.List.Perm.Basic
import Novalton.BoundedScan
import Novalton.Dict
import Novalton.WorkspaceFiles

namespace Novalton.WorkspaceFiles

/-! ## Lines -/

theorem occursIn_iff_within {sub text : Text} : occursIn sub text = true ↔ sub <:+: text := by
  rw [occursIn, List.any_eq_true]
  constructor
  · rintro ⟨tail, htail, hprefix⟩
    exact (List.isPrefixOf_iff_prefix.mp hprefix).isInfix.trans
      ((List.mem_tails _ _).mp htail).isInfix
  · rintro ⟨before, after, rfl⟩
    refine ⟨sub ++ after, ?_, List.isPrefixOf_iff_prefix.mpr (List.prefix_append sub after)⟩
    rw [List.mem_tails, List.append_assoc]
    exact List.suffix_append before (sub ++ after)

/-- What holds no `c` stands on one side of each `c`. -/
theorem within_split {sub before after : Text} {c : Char} (hc : c ∉ sub)
    (h : sub <:+: before ++ c :: after) :
    sub <:+: before ∨ sub <:+: after := by
  obtain ⟨u, v, huv⟩ := h
  rcases List.append_eq_append_iff.mp huv with ⟨a, hbefore, -⟩ | ⟨a, hsub, hafter⟩
  · exact .inl ⟨u, a, hbefore.symm⟩
  · cases a with
    | nil =>
      rw [List.append_nil] at hsub
      exact .inl ⟨u, [], by rw [List.append_nil, hsub]⟩
    | cons d a =>
      rw [List.cons_append, List.cons.injEq] at hafter
      obtain ⟨rfl, hafter⟩ := hafter
      rcases List.append_eq_append_iff.mp hsub with ⟨b, -, hb⟩ | ⟨b, -, hb⟩
      · refine absurd ?_ hc
        rw [hb]
        exact List.mem_append_right b List.mem_cons_self
      · cases b with
        | nil =>
          rw [List.nil_append] at hb
          refine absurd ?_ hc
          rw [← hb]
          exact List.mem_cons_self
        | cons e b =>
          rw [List.cons_append, List.cons.injEq] at hb
          exact .inr ⟨b, v, by rw [hafter, hb.2]⟩

/-- A character `splitlines` ends a line at. -/
def Unbroken (text : Text) : Prop := ∀ c ∈ text, isLineBoundary c = false

theorem Unbroken.reverse {text : Text} (h : Unbroken text) : Unbroken text.reverse :=
  fun c hc => h c (List.mem_reverse.mp hc)

theorem dropBoundary_unbroken {line : Text} (h : Unbroken line) : dropBoundary line = line := by
  rw [dropBoundary]
  split
  next rest hreverse =>
    have := h '\n' (List.mem_reverse.mp (by rw [hreverse]; exact List.mem_cons_self))
    cases this
  next c rest _ hreverse =>
    have hc := h c (List.mem_reverse.mp (by rw [hreverse]; exact List.mem_cons_self))
    rw [hc, if_neg Bool.false_ne_true]
  next hreverse =>
    rw [List.reverse_eq_nil_iff.mp hreverse]

theorem dropBoundary_crlf (line : Text) : dropBoundary
    ('\n' :: '\r' :: line).reverse = line.reverse := by
  rw [dropBoundary, List.reverse_reverse]
  rfl

theorem dropBoundary_boundary {line : Text} {c : Char} (hline : Unbroken line)
    (hc : isLineBoundary c = true) :
    dropBoundary (c :: line).reverse = line.reverse := by
  rw [dropBoundary, List.reverse_reverse]
  split
  next rest hcons =>
    obtain ⟨-, hrest⟩ := List.cons_eq_cons.mp hcons
    have := hline '\r' (by rw [hrest]; exact List.mem_cons_self)
    cases this
  next d rest _ hcons =>
    obtain ⟨rfl, rfl⟩ := List.cons_eq_cons.mp hcons
    rw [if_pos hc]
  next hcons => cases hcons

/-- No line holds a boundary. -/
theorem splitLinesFrom_unbroken : ∀ {line text : Text}, Unbroken line →
    ∀ other ∈ (splitLinesFrom line text).map dropBoundary, Unbroken other := by
  intro line text
  induction line, text using splitLinesFrom.induct with
  | case1 line hempty =>
    intro _ other hother
    rw [splitLinesFrom, if_pos hempty] at hother
    cases hother
  | case2 line hempty =>
    intro hline other hother
    rw [splitLinesFrom, if_neg hempty, List.map_singleton, List.mem_singleton,
      dropBoundary_unbroken hline.reverse] at hother
    rw [hother]
    exact hline.reverse
  | case3 line rest ih =>
    intro hline other hother
    rw [splitLinesFrom, List.map_cons, dropBoundary_crlf] at hother
    rcases List.mem_cons.mp hother with rfl | hother
    · exact hline.reverse
    · exact ih (fun c hc => by cases hc) other hother
  | case4 line c rest hcrlf hc ih =>
    intro hline other hother
    rw [splitLinesFrom, if_pos hc, List.map_cons, dropBoundary_boundary hline hc] at hother
    · rcases List.mem_cons.mp hother with rfl | hother
      · exact hline.reverse
      · exact ih (fun c hc => by cases hc) other hother
    · exact hcrlf
  | case5 line c rest hcrlf hc ih =>
    intro hline other hother
    rw [splitLinesFrom, if_neg hc] at hother
    · refine ih (fun d hd => ?_) other hother
      rcases List.mem_cons.mp hd with rfl | hd
      · exact Bool.not_eq_true _ ▸ hc
      · exact hline d hd
    · exact hcrlf

theorem splitLines_unbroken {text line : Text} (h : line ∈ splitLines text) : Unbroken line :=
  splitLinesFrom_unbroken (fun c hc => by cases hc) line h

/-- What holds no boundary and stands in a text stands in a line of it. -/
theorem splitLinesFrom_occurs {query : Text} (hquery : query ≠ []) (hbroken : Unbroken query) :
    ∀ {line text : Text}, Unbroken line →
    query <:+: line.reverse ++ text → ∃ other ∈ (splitLinesFrom line text).map dropBoundary,
      query <:+: other := by
  have hnot : ∀ {c : Char}, isLineBoundary c = true → c ∉ query := by
    intro c hc hmem
    have := hbroken c hmem
    rw [hc] at this
    cases this
  intro line text
  induction line, text using splitLinesFrom.induct with
  | case1 line hempty =>
    intro _ hwithin
    rw [List.isEmpty_iff.mp hempty] at hwithin
    exact absurd (List.infix_nil.mp hwithin) hquery
  | case2 line hempty =>
    intro hline hwithin
    rw [List.append_nil] at hwithin
    rw [splitLinesFrom, if_neg hempty, List.map_singleton, dropBoundary_unbroken hline.reverse]
    exact ⟨_, List.mem_singleton_self _, hwithin⟩
  | case3 line rest ih =>
    intro _ hwithin
    rw [splitLinesFrom, List.map_cons, dropBoundary_crlf]
    rcases within_split (@hnot '\r' (by decide)) hwithin with hwithin | hwithin
    · exact ⟨_, List.mem_cons_self, hwithin⟩
    · have hnil : query <:+: [] ++ '\n' :: rest := hwithin
      rcases within_split (@hnot '\n' (by decide)) hnil with hwithin | hwithin
      · exact absurd (List.infix_nil.mp hwithin) hquery
      · obtain ⟨other, hother, hwithin⟩ := ih (fun c hc => by cases hc) hwithin
        exact ⟨other, List.mem_cons_of_mem _ hother, hwithin⟩
  | case4 line c rest hcrlf hc ih =>
    intro hline hwithin
    rw [splitLinesFrom, if_pos hc, List.map_cons, dropBoundary_boundary hline hc]
    · rcases within_split (hnot hc) hwithin with hwithin | hwithin
      · exact ⟨_, List.mem_cons_self, hwithin⟩
      · obtain ⟨other, hother, hwithin⟩ := ih (fun c hc => by cases hc) hwithin
        exact ⟨other, List.mem_cons_of_mem _ hother, hwithin⟩
    · exact hcrlf
  | case5 line c rest hcrlf hc ih =>
    intro hline hwithin
    rw [splitLinesFrom, if_neg hc]
    · refine ih (fun d hd => ?_) (by simpa using hwithin)
      rcases List.mem_cons.mp hd with rfl | hd
      · exact Bool.not_eq_true _ ▸ hc
      · exact hline d hd
    · exact hcrlf

theorem splitLines_occurs {query text : Text} (hquery : query ≠ []) (hbroken : Unbroken query)
    (h : query <:+: text) :
    ∃ line ∈ splitLines text, query <:+: line :=
  splitLinesFrom_occurs hquery hbroken (fun c hc => by cases hc) h

/-- What holds a boundary stands in no line. -/
theorem splitLines_broken {query text line : Text} (hbroken : ¬Unbroken query)
    (h : line ∈ splitLines text) : ¬query <:+: line :=
  fun hwithin => hbroken fun c hc => splitLines_unbroken h c (hwithin.subset hc)

/-! ## The order of the nodes -/

namespace FileSystem
variable {fs fs' : FileSystem} {links : Nat}

/-- What stands at a path does not depend on the order of the nodes. -/
theorem lookup_eq (h : fs'.nodes.Perm fs.nodes) : fs'.lookup = fs.lookup := by
  funext path
  rw [lookup, lookup, nodeAt, nodeAt, lookup_perm fs.distinct h]

theorem walkFrom_eq (h : fs'.lookup = fs.lookup) {kernel : Bool}
    {follow : List Text → List Text → Option (List Text)} :
    fs'.walkFrom kernel follow = fs.walkFrom kernel follow := by
  funext current rest
  induction rest generalizing current with
  | nil => rfl
  | cons part rest ih =>
    rw [walkFrom, walkFrom, h]
    simp only [ih]

theorem walk_congr (h : fs'.lookup = fs.lookup) (kernel : Bool) :
    fs'.walk kernel links = fs.walk kernel links := by
  induction links with
  | zero => rw [walk, walk, walkFrom_eq h]
  | succ links ih => rw [walk, walk, walkFrom_eq h, ih]

theorem is_symlink_eq (h : fs'.lookup = fs.lookup) :
    fs'.is_symlink links = fs.is_symlink links := by
  funext path
  rw [is_symlink, is_symlink, lstat, lstat, h, walk_congr h]

theorem stat_eq (h : fs'.lookup = fs.lookup) : fs'.stat links = fs.stat links := by
  funext path
  rw [stat, stat, h, walk_congr h]

theorem realpath_eq (h : fs'.lookup = fs.lookup) : fs'.realpath links = fs.realpath links := by
  funext path
  rw [realpath, realpath, walk_congr h]

theorem is_dir_eq (h : fs'.lookup = fs.lookup) : fs'.is_dir links = fs.is_dir links := by
  funext path
  rw [is_dir, is_dir, stat_eq h]

theorem is_file_eq (h : fs'.lookup = fs.lookup) : fs'.is_file links = fs.is_file links := by
  funext path
  rw [is_file, is_file, stat_eq h]

end FileSystem

theorem resolve_eq {lib : Library} {fs fs' : FileSystem} {links : Nat} {root : WorkspaceRoot}
    (h : fs'.lookup = fs.lookup) :
    root.resolve lib fs' links = root.resolve lib fs links := by
  funext relative allow_directory
  rw [WorkspaceRoot.resolve, WorkspaceRoot.resolve, FileSystem.is_symlink_eq h,
    FileSystem.realpath_eq h, FileSystem.is_dir_eq h, FileSystem.is_file_eq h]

/-! ## What a search looks at -/

def FileNode.isFile : FileNode → Bool
  | .file _ _ => true
  | _ => false

section
variable (lib : Library) (fs : FileSystem) (root : WorkspaceRoot)

/-- Below the base, behind directories that can be listed. -/
def reachable (base path : List Text) : Bool :=
  base.isPrefixOf path && base.length < path.length &&
    path.dropLast.inits.all fun pre => pre.length < base.length ||
      fs.lookup pre == .some (.directory true)

/-- A file, and no denied component in its name. -/
def shown (path : List Text) : Bool :=
  !denied lib (root.relative_to path) && (fs.lookup path).any FileNode.isFile

/-- The visible files below the base. -/
def visibleFiles (base : List Text) : List (List Text) :=
  (fs.nodes.map Prod.fst).filter fun path => reachable fs base path && shown lib fs root path

/-- The text of a readable text file. -/
def fileText (path : List Text) : Option Text :=
  match fs.lookup path with
  | .some (.file true data) => if data.contains 0 then .none else decode data
  | _ => .none

def numberedLines (text : Text) : List (Nat × Text) := ((splitLines text).zipIdx 1).map Prod.swap

/-- The lines that hold the query. -/
def lineHits (query path : Text) (lines : List (Nat × Text)) : List Match :=
  (lines.filter fun line => occursIn query line.2).map fun line =>
    ⟨path, line.1, line.2.take 300, decide (300 < line.2.length)⟩

/-- The lines of a file that hold the query. -/
def fileHits (query : Text) (path : List Text) : List Match :=
  ((fileText fs path).map fun text =>
    lineHits query (relativeText (root.relative_to path)) (numberedLines text)).getD []

/-- What paths are sorted by: `path.as_posix().casefold()`. -/
def sortKey (path : List Text) : Text := lib.casefold ('/' :: joinSlash path)

end

section
variable {lib : Library} {fs fs' : FileSystem} {links : Nat} {root : WorkspaceRoot} {query : Text}
  {max_results : Nat} {base path : List Text}

/-! ### The loops -/

theorem matchLines_eq {name : Text} : ∀ {lines : List (Nat × Text)} {found : List Match},
    found.length < max_results →
    matchLines query name max_results lines found =
      ((found ++ lineHits query name lines).take max_results,
      decide (max_results ≤ (found ++ lineHits query name lines).length)) := by
  intro lines
  induction lines with
  | nil =>
    intro found hfound
    have hhits : lineHits query name [] = [] := rfl
    rw [matchLines, hhits, List.append_nil, List.take_of_length_le hfound.le,
      decide_eq_false (by omega)]
  | cons line lines ih =>
    intro found hfound
    obtain ⟨number, line⟩ := line
    rw [matchLines]
    by_cases hoccurs : occursIn query line = true
    · have hhits : lineHits query name ((number, line) :: lines) =
          [⟨name, number, line.take 300, decide (300 < line.length)⟩] ++
              lineHits query name lines := by
        simp [lineHits, hoccurs]
      rw [if_neg (by simp [hoccurs]), hhits, ← List.append_assoc]
      dsimp only
      split
      next hfull =>
        have hlength :
            (found ++ [(⟨name, number, line.take 300, decide (300 < line.length)⟩ :
            Match)]).length = max_results := by
          rw [List.length_append, List.length_singleton] at hfull ⊢
          omega
        rw [List.take_append_of_le_length hlength.ge, List.take_of_length_le hlength.le,
          List.length_append, decide_eq_true (Nat.le_add_right_of_le hlength.ge)]
      next hfull =>
        refine ih ?_
        omega
    · have hhits : lineHits query name ((number, line) :: lines) = lineHits query name lines := by
        simp [lineHits, hoccurs]
      rw [if_pos (by simpa using hoccurs), hhits]
      exact ih hfound

/-- What the test and the reading of the loop over the files come to, on one path. -/
structure Looked (lib : Library) (fs : FileSystem) (links : Nat) (root : WorkspaceRoot)
    (path : List Text) : Prop where
  skipped : (denied lib (root.relative_to path) || fs.is_symlink links path ||
    !fs.is_file links path) = !shown lib fs root path
  text : shown lib fs root path = true → searchedText fs links path = fileText fs path

theorem fileHits_none (h : fileText fs path = .none) : fileHits fs root query path = [] := by
  rw [fileHits, h]
  rfl

theorem fileHits_some {text : Text} (h : fileText fs path = .some text) :
    fileHits fs root query path = lineHits query (relativeText (root.relative_to path))
      (numberedLines text) := by
  rw [fileHits, h]
  rfl

theorem mem_fileHits {m : Match} (h : m ∈ fileHits fs root query path) : ∃ text line,
    fileText fs path = .some text ∧
    line ∈ splitLines text ∧ occursIn query line = true ∧ m.path = relativeText
      (root.relative_to path) := by
  cases htext : fileText fs path with
  | none =>
    rw [fileHits_none htext] at h
    cases h
  | some text =>
    rw [fileHits_some htext, lineHits, List.mem_map] at h
    obtain ⟨line, hline, rfl⟩ := h
    obtain ⟨hline, hoccurs⟩ := List.mem_filter.mp hline
    rw [numberedLines, List.mem_map] at hline
    obtain ⟨indexed, hindexed, rfl⟩ := hline
    have hline := (List.mem_zipIdx_iff_le_and_getElem?_sub.mp hindexed).2
    exact ⟨text, indexed.1, rfl, List.mem_of_getElem? hline, hoccurs, rfl⟩

/-- A line that holds the query is a hit. -/
theorem fileHits_ne_nil {text line : Text} (htext : fileText fs path = .some text)
    (hline : line ∈ splitLines text) (hoccurs : occursIn query line = true) :
    fileHits fs root query path ≠ [] := by
  obtain ⟨i, hi, rfl⟩ := List.mem_iff_getElem.mp hline
  rw [fileHits_some htext, lineHits, ne_eq, List.map_eq_nil_iff, List.filter_eq_nil_iff]
  intro hnone
  refine hnone (1 + i, (splitLines text)[i]) ?_ hoccurs
  rw [numberedLines, List.mem_map]
  refine ⟨((splitLines text)[i], 1 + i), ?_, rfl⟩
  rw [List.mk_mem_zipIdx_iff_le_and_getElem?_sub]
  exact ⟨by omega, by simp⟩

/-- **The loop over the files**: the hits of the files it still may look at, up to the limit. -/
theorem searchFiles_eq : ∀ {paths : List (List Text)} {search : Search},
    (∀ path ∈ paths, Looked lib fs links root path) →
    search.found.length < max_results → search.scanned ≤ 1000 → search.truncated = false →
    (searchFiles lib fs links root query max_results paths search).found =
        (search.found ++ ((paths.filter (shown lib fs root)).take (1000 - search.scanned)).flatMap
          (fileHits fs root query)).take max_results ∧
      (searchFiles lib fs links root query max_results paths search).truncated =
        (decide (max_results ≤
            (search.found ++
              ((paths.filter (shown lib fs root)).take (1000 - search.scanned)).flatMap
              (fileHits fs root query)).length) ||
          decide (1000 - search.scanned < (paths.filter (shown lib fs root)).length)) := by
  intro paths
  induction paths with
  | nil =>
    intro search _ hfound _ htruncated
    rw [searchFiles, List.filter_nil, List.take_nil, List.flatMap_nil, List.append_nil, htruncated]
    refine ⟨(List.take_of_length_le hfound.le).symm, ?_⟩
    rw [decide_eq_false (by omega), decide_eq_false (by simp)]
    rfl
  | cons path paths ih =>
    intro search hlooked hfound hscanned htruncated
    have hpath := hlooked path List.mem_cons_self
    have hrest : ∀ other ∈ paths, Looked lib fs links root other :=
      fun other hother => hlooked other (List.mem_cons_of_mem path hother)
    rw [searchFiles]
    dsimp only
    rw [hpath.skipped]
    by_cases hshown : shown lib fs root path = true
    · rw [if_neg (by simp [hshown]), List.filter_cons_of_pos hshown]
      by_cases hlimit : 1000 < search.scanned + 1
      · have hzero : 1000 - search.scanned = 0 := by omega
        rw [if_pos hlimit, hzero, List.take_zero, List.flatMap_nil, List.append_nil]
        refine ⟨(List.take_of_length_le hfound.le).symm, ?_⟩
        simp
      · have hsucc : 1000 - search.scanned = (1000 - (search.scanned + 1)) + 1 := by omega
        rw [if_neg hlimit, hsucc, List.take_succ_cons, List.flatMap_cons, List.length_cons]
        simp only [Nat.add_lt_add_iff_right]
        have hread := hpath.text hshown
        cases htext : searchedText fs links path with
        | none =>
          rw [htext] at hread
          rw [fileHits_none hread.symm, List.nil_append]
          exact ih hrest hfound (by dsimp only; omega) htruncated
        | some text =>
          rw [htext] at hread
          have hmatch := @matchLines_eq query max_results (relativeText (root.relative_to path))
            (numberedLines text) search.found hfound
          rw [← fileHits_some hread.symm] at hmatch
          rw [numberedLines] at hmatch
          dsimp only
          rw [hmatch, ← List.append_assoc]
          dsimp only
          by_cases hfull : max_results ≤ (search.found ++ fileHits fs root query path).length
          · rw [if_pos (decide_eq_true hfull), List.take_append_of_le_length hfull]
            refine ⟨rfl, ?_⟩
            rw [decide_eq_true (by rw [List.length_append]; omega), Bool.true_or]
          · rw [if_neg (by simpa using hfull), List.take_of_length_le (by omega)]
            exact ih hrest (by dsimp only; omega) (by dsimp only; omega) htruncated
    · rw [if_pos (by simpa using hshown), List.filter_cons_of_neg hshown]
      exact ih hrest hfound hscanned htruncated

/-! ### The files of a search -/

theorem shown_eq (h : fs'.lookup = fs.lookup) : shown lib fs' root = shown lib fs root := by
  funext path
  rw [shown, shown, h]

theorem fileHits_eq (h : fs'.lookup = fs.lookup) :
    fileHits fs' root query = fileHits fs root query := by
  funext path
  rw [fileHits, fileHits, fileText, fileText, h]

theorem reachable_eq (h : fs'.lookup = fs.lookup) : reachable fs' base = reachable fs base := by
  funext path
  rw [reachable, reachable, h]

theorem visibleFiles_perm (h : fs'.nodes.Perm fs.nodes) : (visibleFiles lib fs' root base).Perm
    (visibleFiles lib fs root base) := by
  have hlookup := FileSystem.lookup_eq h
  rw [visibleFiles, visibleFiles, shown_eq hlookup, reachable_eq hlookup]
  exact (h.map Prod.fst).filter _

theorem visibleFiles_nodup : (visibleFiles lib fs root base).Nodup := fs.distinct.filter _

/-- What `rglob` lists of a real directory, in the order of the nodes. -/
theorem rglob_eq (hbase : fs.Real base) : fs.rglob links base = (fs.nodes.map Prod.fst).filter
    (reachable fs base) := by
  rw [FileSystem.rglob, FileSystem.walk_of_real hbase]
  dsimp only
  have hsame : ∀ path ∈ (fs.nodes.map Prod.fst).filter (reachable fs base),
      base ++ path.drop base.length = path := by
    intro path hpath
    have hreachable := (List.mem_filter.mp hpath).2
    simp only [reachable, Bool.and_eq_true, List.isPrefixOf_iff_prefix] at hreachable
    obtain ⟨rest, rfl⟩ := hreachable.1.1
    rw [List.drop_left]
  exact (List.map_congr_left hsame).trans (List.map_id _)

theorem filter_rglob (hbase : fs.Real base) : (fs.rglob links base).filter
    (shown lib fs root) = visibleFiles lib fs root base := by
  rw [rglob_eq hbase, List.filter_filter, visibleFiles]
  simp only [Bool.and_comm]

/-- The test of the loop, on an entry that `rglob` lists. -/
theorem looked_skipped (hentry : Entry fs root path) :
    (denied lib (root.relative_to path) || fs.is_symlink links path || !fs.is_file links path) =
    !shown lib fs root path := by
  cases hlink : fs.is_symlink links path with
  | true =>
    have hnode : (fs.lookup path).any FileNode.isFile = false := by
      obtain ⟨parent, name, hpath, hreal, -⟩ := hentry
      rw [← List.append_assoc] at hpath
      rw [hpath, FileSystem.is_symlink, FileSystem.lstat_real hreal] at hlink
      rw [hpath]
      cases hlookup : fs.lookup (root.path ++ parent ++ [name]) with
      | none => rfl
      | some node =>
        rw [hlookup, Option.any_some] at hlink
        cases node with
        | symlink target => rfl
        | file | directory | special => cases hlink
    rw [shown, hnode, Bool.and_false, Bool.or_true]
    rfl
  | false =>
    rw [Bool.or_false, FileSystem.is_file, FileSystem.stat_real (hentry.real hlink), shown,
      Bool.not_and, Bool.not_not]
    cases fs.lookup path with
    | none => rfl
    | some node => cases node <;> rfl

/-- A shown file of at most 65,536 bytes is read. -/
theorem searchedText_eq (hentry : Entry fs root path) (hshown : shown lib fs root path = true)
    (hsize : ∀ readable content, fs.lookup path = .some (.file readable content) →
      content.length ≤ 65536) :
    searchedText fs links path = fileText fs path := by
  have htest := @looked_skipped lib fs links root path hentry
  rw [hshown, Bool.not_true, Bool.or_eq_false_iff, Bool.or_eq_false_iff] at htest
  rw [searchedText, FileSystem.stat_real (hentry.real htest.1.2), fileText]
  cases hnode : fs.lookup path with
  | none => rfl
  | some node =>
    cases node with
    | directory | symlink | special => rfl
    | file readable content =>
      dsimp only
      rw [if_neg (not_lt.mpr (hsize readable content hnode))]
      cases readable <;> rfl

/-- The order in which a search comes to its files. -/
def searchOrder (lib : Library) (fs : FileSystem) (links : Nat) (root : WorkspaceRoot)
    (base : List Text) : List (List Text) :=
  (sortedByCasefold lib (fun path => '/' :: joinSlash path) (fs.rglob links base)).filter
    (shown lib fs root)

theorem searchOrder_arrangement (hbase : fs.Real base) :
    Scan.Arrangement (sortKey lib) (visibleFiles lib fs root base)
      (searchOrder lib fs links root base) where
  perm := by
    rw [← @filter_rglob lib fs links root base hbase]
    exact (List.perm_insertionSort _ _).filter _
  sorted := by
    have htotal : Std.Total fun a b : List Text => sortKey lib a ≤ sortKey lib b :=
      ⟨fun a b => le_total _ _⟩
    have htrans : IsTrans (List Text) fun a b => sortKey lib a ≤ sortKey lib b :=
      ⟨fun a b c => le_trans⟩
    exact (List.pairwise_insertionSort (fun a b => sortKey lib a ≤ sortKey lib b) _).sublist
      List.filter_sublist

/-- The same tree, its nodes in another order. -/
def FileSystem.reorder (fs : FileSystem) (nodes : List (List Text × FileNode))
    (h : nodes.Perm fs.nodes) : FileSystem where
  nodes := nodes
  distinct := (h.map Prod.fst).nodup_iff.mpr fs.distinct
  named := fun entry hentry => fs.named entry (h.subset hentry)
  parents := by
    intro entry hentry
    have hnodes : nodeAt nodes = nodeAt fs.nodes := by
      funext path
      rw [nodeAt, nodeAt, lookup_perm fs.distinct h]
    rw [hnodes]
    exact fs.parents entry (h.subset hentry)

/-- Every order of the visible files by their keys is that of an enumeration. -/
theorem searchOrder_realized {order : List (List Text)} (hbase : fs.Real base)
    (h : Scan.Arrangement (sortKey lib) (visibleFiles lib fs root base) order) :
    ∃ fs' : FileSystem, fs'.nodes.Perm fs.nodes ∧ searchOrder lib fs' links root base = order := by
  set selected : List Text × FileNode → Bool := fun entry => reachable fs base entry.1 &&
    shown lib fs root entry.1 with hselected
  have hvisible : visibleFiles lib fs root base = (fs.nodes.filter selected).map Prod.fst := by
    rw [visibleFiles, List.filter_map]
    rfl
  have hcomp : Relation.Comp (fun l m => l = m.map Prod.fst) List.Perm order
      (fs.nodes.filter selected) := by
    rw [List.eq_map_comp_perm]
    have hperm := h.perm
    rw [hvisible] at hperm
    exact hperm
  obtain ⟨front, horder, hfront⟩ := hcomp
  have hperm : (front ++ fs.nodes.filter fun entry => !selected entry).Perm fs.nodes :=
    (hfront.append_right _).trans (List.filter_append_perm selected fs.nodes)
  refine ⟨fs.reorder _ hperm, hperm, ?_⟩
  have hlookup : (fs.reorder _ hperm).lookup = fs.lookup := FileSystem.lookup_eq hperm
  have hreal : (fs.reorder _ hperm).Real base := by
    rw [FileSystem.Real, hlookup]
    exact hbase
  have hfiles : visibleFiles lib (fs.reorder _ hperm) root base = order := by
    have hkeep : front.filter selected = front := by
      rw [List.filter_eq_self]
      intro entry hentry
      exact (List.mem_filter.mp (hfront.subset hentry)).2
    have hdrop : (fs.nodes.filter fun entry => !selected entry).filter selected = [] := by
      rw [List.filter_eq_nil_iff]
      intro entry hentry
      simpa using (List.mem_filter.mp hentry).2
    rw [visibleFiles, shown_eq hlookup, reachable_eq hlookup, List.filter_map]
    show ((front ++ fs.nodes.filter fun entry => !selected entry).filter selected).map Prod.fst =
      order
    rw [List.filter_append, hkeep, hdrop, List.append_nil, horder]
  have htotal : Std.Total fun a b : List Text => sortKey lib a ≤ sortKey lib b :=
    ⟨fun a b => le_total _ _⟩
  have htrans : IsTrans (List Text) fun a b => sortKey lib a ≤ sortKey lib b :=
    ⟨fun a b c => le_trans⟩
  have hsub : order.Sublist (sortedByCasefold lib (fun path => '/' :: joinSlash path)
      ((fs.reorder _ hperm).rglob links base)) := by
    refine List.sublist_insertionSort h.sorted ?_
    rw [← hfiles, ← @filter_rglob lib (fs.reorder _ hperm) links root base hreal]
    exact List.filter_sublist
  have hshown : order.filter (shown lib (fs.reorder _ hperm) root) = order := by
    rw [← hfiles, ← @filter_rglob lib (fs.reorder _ hperm) links root base hreal,
      List.filter_filter]
    simp only [Bool.and_self]
  have hfilter := hsub.filter (shown lib (fs.reorder _ hperm) root)
  rw [hshown] at hfilter
  refine (hfilter.eq_of_length ?_).symm
  have hlength :=
    (@searchOrder_arrangement lib (fs.reorder _ hperm) links root base hreal).perm.length_eq
  rw [hfiles] at hlength
  exact hlength.symm

end

/-! ## Exact searches -/

section
variable (lib : Library) (fs : FileSystem) (links : Nat) (root : WorkspaceRoot)
  (data : WorkspaceSearchTextInput) (base : List Text)

/-- An exact answer: the first matches of the files in an order, each file that holds the
query among them, and truncation reported when a match or a file was left. -/
structure Exact (order : List (List Text)) (evidence : SearchTextEvidence) : Prop where
  found : evidence.found = (order.flatMap (fileHits fs root data.query)).take data.max_results
  complete : ∀ path ∈ order, ∀ text, fileText fs path = .some text →
    occursIn data.query text = true →
    evidence.found.length < data.max_results → ∃ m ∈ evidence.found,
      m.path = relativeText (root.relative_to path)
  truncated : evidence.truncated = true ↔
    data.max_results < (order.flatMap (fileHits fs root data.query)).length ∨
    1000 < order.length ∧ evidence.found.length < data.max_results

/-- In every order of enumeration the search succeeds, with the exact answer for one order of
the visible files. -/
def SearchExact : Prop :=
  ∃ order, order.Perm (visibleFiles lib fs root base) ∧ ∀ fs' : FileSystem,
    fs'.nodes.Perm fs.nodes →
    ∃ evidence metadata, SearchTextExecutor.execute lib fs' links root data =
      .ok (evidence, metadata) ∧
      Exact fs root data order evidence

/-- No two files that the matches reach fold alike, none of them lies beyond the 1000 files
looked at, the matches do not just fill the result, and a query that `splitlines` would cut
stands nowhere. -/
structure Unambiguous : Prop where
  settled : Scan.Settled (sortKey lib) (fileHits fs root data.query) 1000 data.max_results
    (visibleFiles lib fs root base)
  room : ((visibleFiles lib fs root base).flatMap (fileHits fs root data.query)).length ≠
    data.max_results
  query : Unbroken data.query ∨ ∀ path ∈ visibleFiles lib fs root base, ∀ text,
    fileText fs path = .some text →
    occursIn data.query text = false

end

section
variable {lib : Library} {fs fs' : FileSystem} {links : Nat} {root : WorkspaceRoot}
  {data : WorkspaceSearchTextInput} {base path : List Text}

/-- At most 65,536 bytes in each visible file. -/
def SmallFiles (lib : Library) (fs : FileSystem) (root : WorkspaceRoot) (base : List Text) : Prop :=
  ∀ path ∈ visibleFiles lib fs root base, ∀ readable content,
    fs.lookup path = .some (.file readable content) → content.length ≤ 65536

theorem entry_of_visible (hbase : root.resolve lib fs links data.path true = .ok base)
    (h : path ∈ fs.rglob links base) :
    Entry fs root path := by
  obtain ⟨hpath, hvisible, -⟩ := resolve_ok hbase
  exact rglob_entry hpath (by rw [hpath]; exact hvisible.2) h

/-- A file that the loop tests and does not show may have any size. -/
theorem looked_of_small (hsmall : SmallFiles lib fs root base)
    (hbase : root.resolve lib fs links data.path true = .ok base) (h : path ∈ fs.rglob links base) :
    Looked lib fs links root path := by
  have hentry := entry_of_visible hbase h
  obtain ⟨hpath, hvisible, -⟩ := resolve_ok hbase
  have hreal : fs.Real base := by rw [hpath]; exact hvisible.2
  refine ⟨looked_skipped hentry, fun hshown => searchedText_eq hentry hshown (hsmall path ?_)⟩
  rw [← @filter_rglob lib fs links root base hreal]
  exact List.mem_filter.mpr ⟨h, hshown⟩

/-- **What a search answers**: the matches of the files it looks at, up to the limit. -/
theorem execute_eq (hbase : root.resolve lib fs links data.path true = .ok base)
    (hsmall : SmallFiles lib fs root base) :
    ∃ evidence metadata, SearchTextExecutor.execute lib fs links root data = .ok
      (evidence, metadata) ∧
      evidence.found = Scan.results (fileHits fs root data.query) 1000 data.max_results
        (searchOrder lib fs links root base) ∧
      (evidence.truncated = true ↔
        data.max_results ≤
          (Scan.scanned (fileHits fs root data.query) 1000
          (searchOrder lib fs links root base)).length ∨
          1000 < (searchOrder lib fs links root base).length) := by
  have hlooked : ∀ path ∈ sortedByCasefold lib (fun path =>
      '/' :: joinSlash path) (fs.rglob links base), Looked lib fs links root path :=
    fun path hpath => looked_of_small hsmall hbase ((List.mem_insertionSort _).mp hpath)
  have hpos : 0 < data.max_results := data.results_bounds.1
  obtain ⟨hfound, htruncated⟩ :=
    @searchFiles_eq lib fs links root data.query data.max_results _ ⟨[], 0, false⟩ hlooked hpos
    (Nat.zero_le _) rfl
  refine ⟨_, _, by rw [SearchTextExecutor.execute, hbase]; rfl, ?_, ?_⟩
  · exact hfound
  · dsimp only
    rw [htruncated, Bool.or_eq_true, decide_eq_true_eq, decide_eq_true_eq]
    rfl

theorem real_of_visible (hbase : root.resolve lib fs links data.path true = .ok base)
    (h : path ∈ visibleFiles lib fs root base) :
    Entry fs root path ∧ fs.Real path := by
  obtain ⟨hpath, hvisible, -⟩ := resolve_ok hbase
  have hreal : fs.Real base := by rw [hpath]; exact hvisible.2
  rw [← @filter_rglob lib fs links root base hreal] at h
  obtain ⟨hentries, hshown⟩ := List.mem_filter.mp h
  have hentry := entry_of_visible hbase hentries
  have htest := @looked_skipped lib fs links root path hentry
  rw [hshown, Bool.not_true, Bool.or_eq_false_iff, Bool.or_eq_false_iff] at htest
  exact ⟨hentry, hentry.real htest.1.2⟩

/-- The hits of two visible files begin alike only for one file. -/
theorem fileHits_heads {query : Text} {other : List Text}
    (hbase : root.resolve lib fs links data.path true = .ok base)
    (hpath : path ∈ visibleFiles lib fs root base) (hother : other ∈ visibleFiles lib fs root base)
    (hne : fileHits fs root query path ≠ [])
    (hheads : (fileHits fs root query path).head? = (fileHits fs root query other).head?) :
    path = other := by
  obtain ⟨m, rest, hcons⟩ := List.exists_cons_of_ne_nil hne
  rw [hcons, List.head?_cons] at hheads
  obtain ⟨-, -, -, -, -, hname⟩ :=
    mem_fileHits (show m ∈ fileHits fs root query path by rw [hcons]; exact List.mem_cons_self)
  obtain ⟨-, -, -, -, -, hname'⟩ :=
    mem_fileHits (List.mem_of_mem_head? (Option.mem_def.mpr hheads.symm))
  have hparts : ∀ {p : List Text}, p ∈ visibleFiles lib fs root base →
      pureParts (relativeText (root.relative_to p)) = root.relative_to p ∧
          p = root.path ++ root.relative_to p := by
    intro p hp
    obtain ⟨hentry, hreal⟩ := real_of_visible hbase hp
    have hbelow := hentry.below
    exact ⟨pureParts_relativeText (named_below (by rw [← hbelow]; exact hreal)), hbelow⟩
  obtain ⟨hread, hbelow⟩ := hparts hpath
  obtain ⟨hread', hbelow'⟩ := hparts hother
  rw [hbelow, hbelow', ← hread, ← hread', ← hname, ← hname']

/-- A run of the search on the tree in another order, by the hits of the tree itself. -/
theorem execute_reordered (hbase : root.resolve lib fs links data.path true = .ok base)
    (hsmall : SmallFiles lib fs root base) (h : fs'.nodes.Perm fs.nodes) :
    Scan.Arrangement (sortKey lib) (visibleFiles lib fs root base)
      (searchOrder lib fs' links root base) ∧
      ∃ evidence metadata, SearchTextExecutor.execute lib fs' links root data = .ok
        (evidence, metadata) ∧
        evidence.found = Scan.results (fileHits fs root data.query) 1000 data.max_results
          (searchOrder lib fs' links root base) ∧
        (evidence.truncated = true ↔
          data.max_results ≤
            (Scan.scanned (fileHits fs root data.query) 1000
            (searchOrder lib fs' links root base)).length ∨
            1000 < (visibleFiles lib fs root base).length) := by
  have hlookup := FileSystem.lookup_eq h
  have hperm := @visibleFiles_perm lib fs fs' root base h
  have hbase' : root.resolve lib fs' links data.path true = .ok base := by
    rw [resolve_eq hlookup, hbase]
  have hsmall' : SmallFiles lib fs' root base := by
    intro path hpath
    rw [hlookup]
    exact hsmall path (hperm.subset hpath)
  have hreal : fs'.Real base := by
    obtain ⟨hpath, hvisible, -⟩ := resolve_ok hbase'
    rw [hpath]
    exact hvisible.2
  have harranged := @searchOrder_arrangement lib fs' links root base hreal
  have hexecute := execute_eq hbase' hsmall'
  rw [fileHits_eq hlookup, (harranged.perm.trans hperm).length_eq] at hexecute
  exact ⟨⟨harranged.perm.trans hperm, harranged.sorted⟩, hexecute⟩

/-- An unambiguous search is exact. -/
theorem exact_of_unambiguous (hbase : root.resolve lib fs links data.path true = .ok base)
    (hsmall : SmallFiles lib fs root base) (h : Unambiguous lib fs root data base) :
    SearchExact lib fs links root data base := by
  obtain ⟨harranged, -⟩ := execute_reordered hbase hsmall (List.Perm.refl fs.nodes)
  refine ⟨searchOrder lib fs links root base, harranged.perm, fun fs' hperm => ?_⟩
  obtain ⟨harranged', evidence, metadata, hexecute, hfound, htruncated⟩ :=
    execute_reordered hbase hsmall hperm
  have hresults := Scan.results_eq h.settled harranged' harranged
  rw [← hfound] at hresults
  have htotal := @Scan.total_length _ _ (fileHits fs root data.query) _ _ harranged.perm
  have hroom := h.room
  rw [← htotal] at hroom
  have hfoundLength : evidence.found.length =
      min data.max_results
          ((searchOrder lib fs links root base).flatMap (fileHits fs root data.query)).length := by
    rw [hresults, List.length_take]
  have hscannedLength : evidence.found.length = min data.max_results
      (Scan.scanned (fileHits fs root data.query) 1000
          (searchOrder lib fs' links root base)).length := by
    rw [hfound, Scan.results, List.length_take]
  refine ⟨evidence, metadata, hexecute, hresults, ?_, ?_⟩
  · intro path hpath text htext hoccurs hshort
    have hpathVisible := harranged.perm.subset hpath
    have hunbroken : Unbroken data.query := by
      rcases h.query with hunbroken | hnowhere
      · exact hunbroken
      · rw [hnowhere path hpathVisible text htext] at hoccurs
        cases hoccurs
    have hquery : data.query ≠ [] := List.length_pos_iff.mp data.query_length.1
    obtain ⟨line, hline, hwithin⟩ :=
      splitLines_occurs hquery hunbroken (occursIn_iff_within.mp hoccurs)
    have hne := @fileHits_ne_nil fs root data.query path text line htext hline
      (occursIn_iff_within.mpr hwithin)
    obtain ⟨m, rest, hcons⟩ := List.exists_cons_of_ne_nil hne
    have hm : m ∈ fileHits fs root data.query path := by rw [hcons]; exact List.mem_cons_self
    obtain ⟨-, -, -, -, -, hname⟩ := mem_fileHits hm
    refine ⟨m, ?_, hname⟩
    rw [hresults, List.take_of_length_le (by omega)]
    exact List.mem_flatMap.mpr ⟨path, hpath, hm⟩
  · rw [htruncated, ← harranged.perm.length_eq]
    omega

/-- An exact search is unambiguous. -/
theorem unambiguous_of_exact (hbase : root.resolve lib fs links data.path true = .ok base)
    (hsmall : SmallFiles lib fs root base) (h : SearchExact lib fs links root data base) :
    Unambiguous lib fs root data base := by
  obtain ⟨order, hperm, hruns⟩ := h
  obtain ⟨hpath, hvisible, -⟩ := resolve_ok hbase
  have hreal : fs.Real base := by rw [hpath]; exact hvisible.2
  obtain ⟨harranged, evidence, metadata, hexecute, hfound, htruncated⟩ :=
    execute_reordered hbase hsmall (List.Perm.refl fs.nodes)
  obtain ⟨evidence', metadata', hexecute', hexact⟩ := hruns fs (List.Perm.refl fs.nodes)
  rw [hexecute, Except.ok.injEq, Prod.mk.injEq] at hexecute'
  rw [← hexecute'.1] at hexact
  have htotal := @Scan.total_length _ _ (fileHits fs root data.query) _ _ hperm
  refine ⟨?_, ?_, ?_⟩
  · refine Scan.settled_of_oneOutcome visibleFiles_nodup (fun f hf g hg hne hheads =>
      fileHits_heads hbase hf hg hne hheads)
      ⟨hperm, fun other hother => ?_⟩
    obtain ⟨fs', hnodes, horder⟩ := @searchOrder_realized lib fs links root base other hreal hother
    obtain ⟨-, evidence, metadata, hexecute, hfound, -⟩ := execute_reordered hbase hsmall hnodes
    obtain ⟨evidence', metadata', hexecute', hexact⟩ := hruns fs' hnodes
    rw [hexecute, Except.ok.injEq, Prod.mk.injEq] at hexecute'
    rw [← hexecute'.1] at hexact
    rw [← horder, ← hfound, hexact.found]
  · -- as many matches as were asked for are taken for too many
    intro hroom
    rw [← htotal] at hroom
    have hlength : evidence.found.length = data.max_results := by
      rw [hexact.found, List.length_take, hroom, min_self]
    have hscanned : data.max_results ≤
        (Scan.scanned (fileHits fs root data.query) 1000
        (searchOrder lib fs links root base)).length := by
      rw [hfound, Scan.results, List.length_take] at hlength
      omega
    have hreport := hexact.truncated.mp (htruncated.mpr (.inl hscanned))
    omega
  · by_cases hunbroken : Unbroken data.query
    · exact .inl hunbroken
    · refine .inr fun path hpath text htext => ?_
      rw [Bool.eq_false_iff]
      intro hoccurs
      have hnone : ∀ p, fileHits fs root data.query p = [] := by
        intro p
        rw [List.eq_nil_iff_forall_not_mem]
        intro m hm
        obtain ⟨text, line, -, hline, hoccurs, -⟩ := mem_fileHits hm
        exact splitLines_broken hunbroken hline (occursIn_iff_within.mp hoccurs)
      have hempty : evidence.found = [] := by
        rw [hexact.found, List.flatMap_eq_nil_iff.mpr fun p _ => hnone p, List.take_nil]
      have hpos := data.results_bounds.1
      obtain ⟨m, hm, -⟩ := hexact.complete path (hperm.symm.subset hpath) text htext hoccurs
        (by rw [hempty, List.length_nil]; omega)
      rw [hempty] at hm
      cases hm

/-- **A search is exact in every order of enumeration exactly when it is unambiguous.** -/
theorem search_exact_iff (hbase : root.resolve lib fs links data.path true = .ok base)
    (hsmall : SmallFiles lib fs root base) :
    SearchExact lib fs links root data base ↔ Unambiguous lib fs root data base :=
  ⟨unambiguous_of_exact hbase hsmall, exact_of_unambiguous hbase hsmall⟩

end

theorem dot_length : 1 ≤ (['.'] : Text).length ∧ (['.'] : Text).length ≤ 300 :=
  ⟨Nat.le_refl 1, Nat.le_of_ble_eq_true rfl⟩

def exampleSearch (max_results : Nat) (h : 1 ≤ max_results ∧ max_results ≤ 100) :
    WorkspaceSearchTextInput where
  query := ['a']
  path := ['.']
  max_results := max_results
  query_length := ⟨Nat.le_refl 1, Nat.le_of_ble_eq_true rfl⟩
  query_accepted := ⟨List.cons_ne_nil 'a' [], rfl⟩
  path_length := dot_length
  path_accepted := rfl
  results_bounds := h

theorem example_resolved : WorkspaceRoot.resolve lowerLibrary exampleFiles 40 ⟨[['w']]⟩
    ['.'] true = .ok [['w']] := by decide +kernel

theorem example_visible : visibleFiles lowerLibrary exampleFiles ⟨[['w']]⟩
    [['w']] = [[['w'], ['a']]] := by decide

theorem example_small : SmallFiles lowerLibrary exampleFiles ⟨[['w']]⟩ [['w']] := by
  intro path hpath readable content hnode
  rw [example_visible, List.mem_singleton] at hpath
  have hfile : exampleFiles.lookup [['w'], ['a']] = .some (.file true [97]) := by decide
  rw [hpath, hfile, Option.some.injEq, FileNode.file.injEq] at hnode
  rw [← hnode.2]
  decide

/-- One line holds `a`; asked for five, the search is exact. -/
theorem roomy_search_exact : SearchExact lowerLibrary exampleFiles 40 ⟨[['w']]⟩
    (exampleSearch 5 (by decide)) [['w']] := by
  refine (search_exact_iff example_resolved example_small).mpr ⟨?_, ?_, .inl fun c hc => ?_⟩
  · intro f hf _ _
    rw [example_visible] at hf ⊢
    refine ⟨fun g hg _ _ => ?_, (List.length_filter_le _ _).trans (by decide)⟩
    rw [List.mem_singleton.mp hf, List.mem_singleton.mp hg]
  · rw [example_visible]
    decide
  · rw [List.mem_singleton.mp hc]
    decide

/-- Asked for one, the search says that there are more. -/
theorem filled_search_inexact :
    WorkspaceRoot.resolve lowerLibrary exampleFiles 40 ⟨[['w']]⟩ ['.'] true = .ok [['w']] ∧
      SmallFiles lowerLibrary exampleFiles ⟨[['w']]⟩ [['w']] ∧
      ¬SearchExact lowerLibrary exampleFiles 40 ⟨[['w']]⟩ (exampleSearch 1 (by decide))
        [['w']] := by
  refine ⟨example_resolved, example_small, fun h => ?_⟩
  refine (unambiguous_of_exact example_resolved example_small h).room ?_
  rw [example_visible]
  decide

end Novalton.WorkspaceFiles
