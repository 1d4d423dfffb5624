import Aetheris.Net.DotSegments
import Aetheris.Net.HttpUrl

/-!
# Relative paths against absolute URLs

RFC 3986 resolves a relative path in section 5.2: its path is put behind the directory of the base's
path, and the dot segments of the result are removed.  `Url::resolve` puts the whole reference, with
its query and fragment, behind what is up to the last slash of the base, and removes dot segments
from all of that.

Both are taken to lists of segments.  The segments in front of the last one, the last one and the
rest of the reference are compared one after the other.
-/

namespace Aetheris.Net

open Segments

/-! ## Section 5.2 of RFC 3986 -/

/-- An absolute hierarchical URL in its parts; the query has its `?` and the fragment its `#`. -/
structure HierarchicalUrl where
  scheme : Bytes
  authority : Bytes
  path : Bytes
  query : Bytes
  fragment : Bytes
  scheme_ne_nil : scheme ≠ []
  scheme_free : ∀ c ∈ scheme, c ∉ lit ":/?#"
  authority_free : ∀ c ∈ authority, c ∉ lit "/?#"
  path_head : ∀ c ∈ path.head?, c = chr '/'
  path_free : ∀ c ∈ path, c ∉ lit "?#"
  query_head : ∀ c ∈ query.head?, c = chr '?'
  query_free : chr '#' ∉ query
  fragment_head : ∀ c ∈ fragment.head?, c = chr '#'

/-- Section 5.3. -/
def HierarchicalUrl.text (u : HierarchicalUrl) : Bytes :=
  u.scheme ++ (lit "://" ++ (u.authority ++ (u.path ++ u.query))) ++ u.fragment

/-- A scheme and a colon, as the expression of appendix B finds them. -/
def HasScheme (text : Bytes) : Prop :=
  ∃ scheme rest, text = scheme ++ chr ':' :: rest ∧ scheme ≠ [] ∧ ∀ c ∈ scheme, c ∉ lit ":/?#"

/-- A relative-path reference in its parts. -/
structure RelativePath where
  path : Bytes
  query : Bytes
  fragment : Bytes
  path_ne_nil : path ≠ []
  path_head : ∀ c ∈ path.head?, c ≠ chr '/'
  path_free : ∀ c ∈ path, c ∉ lit "?#"
  query_head : ∀ c ∈ query.head?, c = chr '?'
  query_free : chr '#' ∉ query
  fragment_head : ∀ c ∈ fragment.head?, c = chr '#'
  noScheme : ¬ HasScheme (path ++ (query ++ fragment))

def RelativePath.text (r : RelativePath) : Bytes := r.path ++ (r.query ++ r.fragment)

/-- The segments in front of the last one. -/
def HierarchicalUrl.directory (b : HierarchicalUrl) : List Bytes := (segmentsOf b.path).dropLast

/-- `merge` of section 5.2.3, for a base with an authority. -/
def HierarchicalUrl.merge (b : HierarchicalUrl) (path : Bytes) : Bytes :=
  pathOf (b.directory ++ path.splitOn (chr '/'))

/-- The target path. -/
def HierarchicalUrl.targetPath (b : HierarchicalUrl) (r : RelativePath) : Bytes :=
  removeDotSegments (b.merge r.path)

/-! ## What the loops work on -/

/-- The test of `resolve` for a scheme. -/
def hasScheme (reference : Bytes) : Bool :=
  match reference.findIdx? (· == chr ':') with
  | some schemeEnd =>
    0 < schemeEnd &&
      (match reference.findIdx? (fun c => c == chr '/' || c == chr '?' || c == chr '#') with
        | some delimiter => schemeEnd < delimiter
        | none => true)
  | none => false

/-- The directory of the base, as `resolve` takes it from the path and the query. -/
def Url.directory (base : Url) : Bytes :=
  match rfind base.path (chr '/') with
  | none => lit "/"
  | some slash => base.path.take (slash + 1)

/-- The path that `resolve` gives to its loops, if it comes to them. -/
def Url.mergedPath (base : Url) (reference : Bytes) : Option Bytes :=
  match reference with
  | [] => none
  | front :: _ =>
    if front = chr '#' ∨ hasScheme reference ∨ reference.take 2 = lit "//" ∨
        !base.isAbsolute ∨ front = chr '/' then none
    else some (base.directory ++ reference)

theorem resolve_cons (base : Url) (front : Byte) (rest : Bytes) :
    base.resolve (front :: rest) =
      if front = chr '#' then
        Url.parse (base.serialized.takeWhile (· != chr '#') ++ front :: rest)
      else if hasScheme (front :: rest) then Url.parse (front :: rest)
      else if (front :: rest).take 2 = lit "//" then
        if base.scheme = [] then Url.parse (front :: rest)
        else Url.parse (base.scheme ++ chr ':' :: front :: rest)
      else if !base.isAbsolute then Url.parse (front :: rest)
      else if front = chr '/' then
        Url.parse (base.scheme ++ lit "://" ++ base.authority ++ front :: rest)
      else
        (removeDotDot (removeDot (base.directory ++ front :: rest))).bind fun path =>
          Url.parse (base.scheme ++ lit "://" ++ base.authority ++ path) := rfl

theorem resolve_of_mergedPath {base : Url} {reference path : Bytes}
    (h : base.mergedPath reference = some path) :
    base.resolve reference = (removeDotDot (removeDot path)).bind fun path =>
      Url.parse (base.scheme ++ lit "://" ++ base.authority ++ path) := by
  cases reference with
  | nil => cases h
  | cons front rest =>
    rw [Url.mergedPath] at h
    split at h
    · cases h
    · rename_i hnot
      obtain ⟨hhash, hscheme, hslashes, habsolute, hslash⟩ :
          front ≠ chr '#' ∧ ¬ hasScheme (front :: rest) ∧ (front :: rest).take 2 ≠ lit "//" ∧
            ¬ (!base.isAbsolute) ∧ front ≠ chr '/' := by
        refine ⟨fun h => hnot ?_, fun h => hnot ?_, fun h => hnot ?_, fun h => hnot ?_,
          fun h => hnot ?_⟩ <;> tauto
      rw [← Option.some.inj h, resolve_cons, if_neg hhash, if_neg hscheme, if_neg hslashes,
        if_neg habsolute, if_neg hslash]

/-! ## The parts that the engine finds -/

/-- The scheme is what is in front of the first `://`. -/
theorem find_scheme {scheme : Bytes} (hscheme : chr ':' ∉ scheme) (rest : Bytes) :
    find (scheme ++ (lit "://" ++ rest)) (lit "://") = some scheme.length := by
  refine find_eq_some_iff.mpr ⟨?_, ?_, fun j hj hpre => hscheme ?_⟩
  · rw [List.length_append]
    exact Nat.le_add_right _ _
  · rw [List.drop_left]
    exact List.prefix_append _ _
  · rw [List.drop_append_of_le_length (Nat.le_of_lt hj), List.drop_eq_getElem_cons hj,
      List.cons_append] at hpre
    have hhead : chr ':' = scheme[j] := (List.cons_prefix_cons.mp hpre).1
    rw [hhead]
    exact List.getElem_mem hj

/-- **The parts that the engine finds**: a scheme, what is behind it, and a fragment. -/
theorem parse_of_parts {scheme body fragment : Bytes} (hscheme : chr ':' ∉ scheme)
    (hhash : chr '#' ∉ scheme ++ (lit "://" ++ body)) (hhead : ∀ c ∈ fragment.head?, c = chr '#') :
    Url.parse (scheme ++ (lit "://" ++ body) ++ fragment) = some {
      serialized := scheme ++ (lit "://" ++ body) ++ fragment
      scheme := scheme
      authority := (splitAuthority body).1
      path := (splitAuthority body).2
      fragment := fragment.tail } := by
  have hfind : find (scheme ++ (lit "://" ++ body) ++ fragment) (lit "://") =
      some scheme.length := by
    rw [List.append_assoc, List.append_assoc]
    exact find_scheme hscheme _
  have hbody : ∀ c ∈ scheme ++ (lit "://" ++ body), ¬ (c == chr '#') = true :=
    fun c hc h => hhash (beq_iff_eq.mp h ▸ hc)
  generalize htext : scheme ++ (lit "://" ++ body) ++ fragment = text at hfind
  have hwithout : ((text.findIdx? (· == chr '#')).map text.take).getD text =
      scheme ++ (lit "://" ++ body) ∧
      ((text.findIdx? (· == chr '#')).map fun i => text.drop (i + 1)).getD [] = fragment.tail := by
    rw [← htext]
    cases fragment with
    | nil =>
      rw [List.append_nil,
        List.findIdx?_eq_none_iff.mpr fun c hc => Bool.eq_false_iff.mpr (hbody c hc)]
      exact ⟨rfl, rfl⟩
    | cons c fragment =>
      rw [findIdx?_of_not_mem hbody (beq_iff_eq.mpr (hhead c rfl)), Option.map_some,
        Option.map_some, Option.getD_some, Option.getD_some, List.take_left, ← List.drop_drop,
        List.drop_left]
      exact ⟨rfl, rfl⟩
  have hlength : ¬ (scheme ++ (lit "://" ++ body)).length < scheme.length + 3 := by
    rw [List.length_append, List.length_append, show (lit "://").length = 3 from rfl]
    omega
  have hdrop : (scheme ++ (lit "://" ++ body)).drop (scheme.length + 3) = body := by
    rw [← List.drop_drop, List.drop_left]
    exact List.drop_left' rfl
  have htake : text.take scheme.length = scheme := by
    rw [← htext, List.append_assoc, List.take_left]
  rw [Url.parse, hfind]
  dsimp only
  rw [hwithout.1, hwithout.2, if_neg hlength, hdrop, htake, splitAuthority]
  cases body.findIdx? (· == chr '/') with
  | none => rfl
  | some pathStart => rfl

namespace HierarchicalUrl

variable (u : HierarchicalUrl)

theorem slash_not_mem_authority : chr '/' ∉ u.authority := fun h =>
  u.authority_free _ h (by decide)

theorem hash_not_mem : chr '#' ∉
    u.scheme ++ (lit "://" ++ (u.authority ++ (u.path ++ u.query))) := by
  simp only [List.mem_append, not_or]
  exact ⟨fun h => u.scheme_free _ h (by decide), by decide,
    fun h => u.authority_free _ h (by decide), fun h => u.path_free _ h (by decide), u.query_free⟩

/-- **The parts that the engine finds in a hierarchical URL.** -/
theorem parse_text :
    Url.parse u.text = some {
      serialized := u.text
      scheme := u.scheme
      authority := (splitAuthority (u.authority ++ (u.path ++ u.query))).1
      path := (splitAuthority (u.authority ++ (u.path ++ u.query))).2
      fragment := u.fragment.tail } :=
  parse_of_parts (fun h => u.scheme_free _ h (by decide)) u.hash_not_mem u.fragment_head

end HierarchicalUrl

/-- What is found without a scheme, and with one. -/
theorem parse_cases {text : Bytes} {base : Url} (h : Url.parse text = some base) :
    ∃ fragment, (∃ path, base = { serialized := text, path := path, fragment := fragment }) ∨
      ∃ schemeEnd afterScheme, base = {
        serialized := text
        scheme := text.take schemeEnd
        authority := (splitAuthority afterScheme).1
        path := (splitAuthority afterScheme).2
        fragment := fragment } := by
  rw [Url.parse] at h
  dsimp only at h
  split at h
  · exact ⟨_, Or.inl ⟨_, (Option.some.inj h).symm⟩⟩
  · rename_i schemeEnd hfind
    split at h
    · cases h
    · refine ⟨((text.findIdx? (· == chr '#')).map fun i => text.drop (i + 1)).getD [],
        Or.inr ⟨schemeEnd,
          (((text.findIdx? (· == chr '#')).map text.take).getD text).drop (schemeEnd + 3), ?_⟩⟩
      rw [splitAuthority]
      cases hslash : ((((text.findIdx? (· == chr '#')).map text.take).getD text).drop
          (schemeEnd + 3)).findIdx? (· == chr '/') with
      | none =>
        rw [hslash] at h
        exact (Option.some.inj h).symm
      | some pathStart =>
        rw [hslash] at h
        exact (Option.some.inj h).symm

/-- The path of an absolute URL starts with a slash. -/
theorem head?_path_of_parse {text : Bytes} {base : Url} (h : Url.parse text = some base)
    (habsolute : base.isAbsolute = true) : base.path.head? = some (chr '/') := by
  obtain ⟨fragment, ⟨path, rfl⟩ | ⟨schemeEnd, afterScheme, rfl⟩⟩ := parse_cases h
  · cases habsolute
  · exact head?_splitAuthority afterScheme

theorem serialized_of_parse {text : Bytes} {base : Url} (h : Url.parse text = some base) :
    base.serialized = text := by
  obtain ⟨fragment, ⟨path, rfl⟩ | ⟨schemeEnd, afterScheme, rfl⟩⟩ := parse_cases h <;> rfl

theorem slash_not_mem_authority_of_parse {text : Bytes} {base : Url}
    (h : Url.parse text = some base) : chr '/' ∉ base.authority := by
  obtain ⟨fragment, ⟨path, rfl⟩ | ⟨schemeEnd, afterScheme, rfl⟩⟩ := parse_cases h
  · exact List.not_mem_nil
  · exact slash_not_mem_splitAuthority afterScheme

theorem segmentsOf_ne_nil (path : Bytes) : segmentsOf path ≠ [] := List.splitOn_ne_nil _ _

/-- The text that the loops work on starts with a slash, and has the segments of the base's
directory and then those of the reference. -/
theorem directory_append {base : Url} (hpath : base.path.head? = some (chr '/'))
    (reference : Bytes) :
    base.directory ++ reference =
      pathOf ((segmentsOf base.path).dropLast ++ reference.splitOn (chr '/')) := by
  obtain ⟨front, last, hsplit⟩ :=
    (List.eq_nil_or_concat' (segmentsOf base.path)).resolve_left (segmentsOf_ne_nil _)
  have hlast : chr '/' ∉ last := slashFree_segmentsOf base.path last
    (hsplit ▸ List.mem_append_right _ (List.mem_singleton_self last))
  have hbase := pathOf_segmentsOf hpath
  rw [hsplit] at hbase
  have htake : base.path.take ((pathOf front).length + 1) = pathOf front ++ [chr '/'] := by
    rw [← hbase, pathOf, pathOf, rooted_append, rooted_singleton, List.take_length_add_append,
      List.take_succ_cons, List.take_zero]
  have hdirectory : base.directory = pathOf front ++ [chr '/'] := by
    rw [Url.directory, ← htake, ← hbase, rfind_pathOf_append hlast]
  rw [hdirectory, hsplit, List.dropLast_concat, pathOf, pathOf, rooted_append, rooted_splitOn,
    List.append_assoc, List.singleton_append]

theorem of_mergedPath_eq_some {base : Url} {reference path : Bytes}
    (h : base.mergedPath reference = some path) :
    base.isAbsolute = true ∧ path = base.directory ++ reference := by
  cases reference with
  | nil => cases h
  | cons front rest =>
    rw [Url.mergedPath] at h
    split at h
    · cases h
    · rename_i hnot
      refine ⟨?_, (Option.some.inj h).symm⟩
      by_contra hrelative
      exact hnot (Or.inr (Or.inr (Or.inr (Or.inl (by
        rw [Bool.not_eq_true']
        exact Bool.eq_false_iff.mpr hrelative)))))

/-- **When the loops are left**: the second one goes on for ever exactly if a `..` in front of the
last segment has no segment before it. -/
theorem ends_mergedPath_iff {text : Bytes} {base : Url} (hbase : Url.parse text = some base)
    {reference path : Bytes} (h : base.mergedPath reference = some path) :
    (∃ path', Loop.Ends dotDotStep (removeDot path) path') ↔
      settle [] (segmentsOf path).dropLast ≠ none := by
  obtain ⟨habsolute, rfl⟩ := of_mergedPath_eq_some h
  have hpath := head?_path_of_parse hbase habsolute
  have hmerged := directory_append hpath reference
  obtain ⟨front, last, hsplit⟩ := (List.eq_nil_or_concat'
    (segmentsOf (base.directory ++ reference))).resolve_left (segmentsOf_ne_nil _)
  have hhead : (base.directory ++ reference).head? = some (chr '/') := by
    obtain ⟨s, rest, hcons⟩ := List.exists_cons_of_ne_nil
      (List.append_ne_nil_of_right_ne_nil (segmentsOf base.path).dropLast
        (List.splitOn_ne_nil (chr '/') reference))
    rw [hmerged, hcons]
    rfl
  have hfree := slashFree_segmentsOf (base.directory ++ reference)
  have hloops := pathOf_segmentsOf hhead
  rw [hsplit] at hfree hloops ⊢
  rw [← hloops, List.dropLast_concat]
  have hremove := removeDotDot_removeDot hfree
  cases hsettle : settle [] front with
  | none =>
    rw [hsettle, Option.map_none] at hremove
    refine iff_of_false ?_ (fun hne => hne rfl)
    rintro ⟨path', hends⟩
    rw [ends_dotDotStep_iff, hremove] at hends
    cases hends
  | some out =>
    rw [hsettle, Option.map_some] at hremove
    exact iff_of_true ⟨_, (ends_dotDotStep_iff _ _).mpr hremove⟩ (fun h => nomatch h)

/-! ## When the target is reached -/

theorem isDot_append {s t : Bytes} (ht : ∀ c ∈ t.head?, c = chr '?' ∨ c = chr '#') (hne : t ≠ []) :
    s ++ t ≠ lit "." ∧ s ++ t ≠ lit ".." := by
  obtain ⟨c, t, rfl⟩ := List.exists_cons_of_ne_nil hne
  have hmem : c ∈ s ++ c :: t := List.mem_append_right _ List.mem_cons_self
  constructor <;>
  · intro h
    rw [h] at hmem
    rcases ht c rfl with rfl | rfl <;> exact absurd hmem (by decide)

/-- What becomes of the last segment of a path. -/
theorem climbLast_eq (output : List Bytes) (last : Bytes) :
    ∃ out s, climbLast output last = out ++ [s] ∧
      (last ≠ lit "." ∧ last ≠ lit ".." → out = output ∧ s = last) ∧ (s = last →
        last ≠ lit "." ∧ last ≠ lit "..") := by
  rw [climbLast]
  by_cases hdot : last = lit "."
  · rw [if_pos hdot]
    refine ⟨output, [], rfl, fun h => absurd hdot h.1, fun h => ?_⟩
    rw [← h]
    exact ⟨by decide, by decide⟩
  · rw [if_neg hdot]
    by_cases hdotDot : last = lit ".."
    · rw [if_pos hdotDot]
      refine ⟨output.dropLast, [], rfl, fun h => absurd hdotDot h.2, fun h => ?_⟩
      rw [← h]
      exact ⟨by decide, by decide⟩
    · rw [if_neg hdotDot]
      exact ⟨output, last, rfl, fun _ => ⟨rfl, rfl⟩, fun _ => ⟨hdot, hdotDot⟩⟩

/-- **The segments that the loops leave are those of the target and the rest of the reference**
exactly if the path does not end in a dot segment, the rest has none between two slashes, and the
segments in front of the last one come out the same. -/
theorem settle_append_eq_iff {scanned output : List Bytes} {last first : Bytes}
    {rest : List Bytes} (hfirst : rest ≠ [] → last ++ first ≠ lit "." ∧ last ++ first ≠ lit "..")
    {out : List Bytes} {s : Bytes} (htarget : climbLast output last = out ++ [s]) :
    (∃ left, settle [] (scanned ++ ((last ++ first) :: rest).dropLast) = some left ∧
        left ++ [((last ++ first) :: rest).getLastD []] = out ++ (s ++ first) :: rest) ↔
      (last ≠ lit "." ∧ last ≠ lit "..") ∧
        (∀ t ∈ rest.dropLast, t ≠ lit "." ∧ t ≠ lit "..") ∧ settle [] scanned = some output := by
  obtain ⟨out', s', heq, hkeep, hdots⟩ := climbLast_eq output last
  obtain ⟨rfl, hs⟩ := List.append_inj' (htarget.symm.trans heq) rfl
  obtain rfl : s = s' := List.singleton_injective hs
  rcases List.eq_nil_or_concat' rest with rfl | ⟨middle, end', rfl⟩
  · rw [List.dropLast_singleton, List.append_nil]
    constructor
    · rintro ⟨left, hsettle, hleft⟩
      obtain ⟨hout, hlast⟩ := List.append_inj' hleft rfl
      have hsame : s = last :=
        (List.append_cancel_right (List.singleton_injective hlast)).symm
      obtain ⟨rfl, -⟩ := hkeep (hdots hsame)
      rw [hout] at hsettle
      exact ⟨hdots hsame, fun t ht => absurd ht List.not_mem_nil, hsettle⟩
    · rintro ⟨hlast, -, hsettle⟩
      obtain ⟨rfl, rfl⟩ := hkeep hlast
      exact ⟨out, hsettle, rfl⟩
  · have hne := hfirst (List.append_ne_nil_of_right_ne_nil _ (List.cons_ne_nil _ _))
    rw [List.dropLast_concat, ← List.cons_append, List.dropLast_concat, List.getLastD_concat,
      settle_append]
    constructor
    · rintro ⟨left, hsettle, hleft⟩
      obtain ⟨before, hbefore, hafter⟩ := Option.bind_eq_some_iff.mp hsettle
      rw [← List.cons_append, ← List.append_assoc] at hleft
      have hout := List.append_cancel_right hleft
      have hmiddle : ∀ t ∈ middle, t ≠ lit "." ∧ t ≠ lit ".." := fun t ht => by
        refine forall_of_settle (forall_of_settle (fun u hu => absurd hu List.not_mem_nil) hbefore)
          hafter t ?_
        rw [hout]
        exact List.mem_append_right _ (List.mem_cons_of_mem _ ht)
      rw [settle_of_forall (fun t ht => (List.mem_cons.mp ht).elim (fun h => h ▸ hne) (hmiddle t)),
        hout, Option.some.injEq] at hafter
      obtain ⟨hbefore', hlast⟩ := List.append_inj' hafter rfl
      have hsame : s = last := (List.append_cancel_right (List.cons.inj hlast).1).symm
      obtain ⟨rfl, -⟩ := hkeep (hdots hsame)
      rw [hbefore'] at hbefore
      exact ⟨hdots hsame, hmiddle, hbefore⟩
    · rintro ⟨hlast, hmiddle, hsettle⟩
      obtain ⟨rfl, rfl⟩ := hkeep hlast
      refine ⟨out ++ (s ++ first) :: middle, ?_, ?_⟩
      · rw [hsettle, Option.bind_some]
        exact settle_of_forall
          (fun t ht => (List.mem_cons.mp ht).elim (fun h => h ▸ hne) (hmiddle t)) out
      · rw [List.append_assoc, List.cons_append]

/-! ## The target -/

theorem mem_pathOf {segments : List Bytes} {c : Byte} (h : c ∈ pathOf segments) :
    c = chr '/' ∨ ∃ s ∈ segments, c ∈ s := by
  obtain ⟨s, hs, hc⟩ := List.mem_flatMap.mp h
  exact (List.mem_cons.mp hc).imp_right fun hc => ⟨s, hs, hc⟩

theorem mem_climbLast {output : List Bytes} {last s : Bytes} (h : s ∈ climbLast output last) :
    s ∈ output ∨ s = last ∨ s = [] := by
  rw [climbLast] at h
  split at h
  · rcases List.mem_append.mp h with h | h
    · exact Or.inl h
    · exact Or.inr (Or.inr (List.mem_singleton.mp h))
  · split at h
    · rcases List.mem_append.mp h with h | h
      · exact Or.inl (List.mem_of_mem_dropLast h)
      · exact Or.inr (Or.inr (List.mem_singleton.mp h))
    · rcases List.mem_append.mp h with h | h
      · exact Or.inl h
      · exact Or.inr (Or.inl (List.mem_singleton.mp h))

/-- The target path is made of segments of the directory and of the reference. -/
theorem targetPath_eq (b : HierarchicalUrl) {r : RelativePath} {front : List Bytes} {last : Bytes}
    (hpath : r.path.splitOn (chr '/') = front ++ [last]) :
    b.targetPath r = pathOf (climbLast (climb [] (b.directory ++ front)) last) := by
  have hfree : SlashFree (b.directory ++ (front ++ [last])) := by
    refine SlashFree.append (fun s hs => ?_) fun s hs => not_mem_of_mem_splitOn (hpath ▸ hs)
    exact slashFree_segmentsOf _ s (List.mem_of_mem_dropLast hs)
  have hne : b.directory ++ (front ++ [last]) ≠ [] :=
    List.append_ne_nil_of_right_ne_nil _ (List.append_ne_nil_of_right_ne_nil _ (List.cons_ne_nil _ _))
  rw [HierarchicalUrl.targetPath, HierarchicalUrl.merge, removeDotSegments, hpath,
    segmentsOf_pathOf hfree hne, ← List.append_assoc, List.dropLast_concat, List.getLastD_concat]

theorem mem_of_mem_climbLast (b : HierarchicalUrl) {r : RelativePath} {front : List Bytes}
    {last s : Bytes} (hpath : r.path.splitOn (chr '/') = front ++ [last])
    (h : s ∈ climbLast (climb [] (b.directory ++ front)) last) :
    s ∈ segmentsOf b.path ∨ s ∈ r.path.splitOn (chr '/') ∨ s = [] := by
  rw [hpath]
  rcases mem_climbLast h with h | h | h
  · have hmem := subset_climb _ _ h
    rw [List.nil_append] at hmem
    rcases List.mem_append.mp hmem with hmem | hmem
    · exact Or.inl (List.mem_of_mem_dropLast hmem)
    · exact Or.inr (Or.inl (List.mem_append_left _ hmem))
  · exact Or.inr (Or.inl (List.mem_append_right _ (List.mem_singleton.mpr h)))
  · exact Or.inr (Or.inr h)

theorem slashFree_climbLast (b : HierarchicalUrl) {r : RelativePath} {front : List Bytes}
    {last : Bytes} (hpath : r.path.splitOn (chr '/') = front ++ [last]) :
    SlashFree (climbLast (climb [] (b.directory ++ front)) last) := by
  intro s hs
  rcases mem_of_mem_climbLast b hpath hs with hs | hs | rfl
  · exact slashFree_segmentsOf _ s hs
  · exact not_mem_of_mem_splitOn hs
  · exact List.not_mem_nil

theorem exists_splitOn (text : Bytes) :
    ∃ front last, text.splitOn (chr '/') = front ++ [last] :=
  (List.eq_nil_or_concat' _).resolve_left (List.splitOn_ne_nil _ _)

theorem head?_targetPath (b : HierarchicalUrl) (r : RelativePath) :
    (b.targetPath r).head? = some (chr '/') := by
  obtain ⟨front, last, hpath⟩ := exists_splitOn r.path
  obtain ⟨out, s, heq, -⟩ := climbLast_eq (climb [] (b.directory ++ front)) last
  rw [targetPath_eq b hpath, heq]
  cases out with
  | nil => rfl
  | cons t out => rfl

/-- Section 5.2.2 for a relative path: the target. -/
def HierarchicalUrl.target (b : HierarchicalUrl) (r : RelativePath) : HierarchicalUrl where
  scheme := b.scheme
  authority := b.authority
  path := b.targetPath r
  query := r.query
  fragment := r.fragment
  scheme_ne_nil := b.scheme_ne_nil
  scheme_free := b.scheme_free
  authority_free := b.authority_free
  path_head c hc := (Option.some.inj ((head?_targetPath b r).symm.trans hc)).symm
  path_free c hc := by
    obtain ⟨front, last, hpath⟩ := exists_splitOn r.path
    rw [targetPath_eq b hpath] at hc
    rcases mem_pathOf hc with rfl | ⟨s, hs, hc⟩
    · decide
    · rcases mem_of_mem_climbLast b hpath hs with hs | hs | rfl
      · exact b.path_free c (List.mem_of_mem_tail (mem_of_mem_splitOn hs hc))
      · exact r.path_free c (mem_of_mem_splitOn hs hc)
      · exact absurd hc List.not_mem_nil
  query_head := r.query_head
  query_free := r.query_free
  fragment_head := r.fragment_head

/-- No dot segment is left in the target path. -/
theorem forall_segmentsOf_targetPath (b : HierarchicalUrl) (r : RelativePath) :
    ∀ s ∈ segmentsOf (b.targetPath r), s ≠ lit "." ∧ s ≠ lit ".." := by
  obtain ⟨front, last, hpath⟩ := exists_splitOn r.path
  have hfree := slashFree_climbLast b hpath
  obtain ⟨out, s, heq, -⟩ := climbLast_eq (climb [] (b.directory ++ front)) last
  rw [targetPath_eq b hpath, segmentsOf_pathOf hfree
    (heq ▸ List.append_ne_nil_of_right_ne_nil _ (List.cons_ne_nil _ _))]
  have hclimb : ∀ t ∈ climb [] (b.directory ++ front), t ≠ lit "." ∧ t ≠ lit ".." :=
    forall_climb fun t ht => absurd ht List.not_mem_nil
  intro t ht
  rw [climbLast] at ht
  split at ht
  · rcases List.mem_append.mp ht with ht | ht
    · exact hclimb t ht
    · rw [List.mem_singleton.mp ht]
      exact ⟨by decide, by decide⟩
  · rename_i hdot
    split at ht
    · rcases List.mem_append.mp ht with ht | ht
      · exact hclimb t (List.mem_of_mem_dropLast ht)
      · rw [List.mem_singleton.mp ht]
        exact ⟨by decide, by decide⟩
    · rename_i hdotDot
      rcases List.mem_append.mp ht with ht | ht
      · exact hclimb t ht
      · rw [List.mem_singleton.mp ht]
        exact ⟨hdot, hdotDot⟩

/-- The result is the target: its scheme and its authority are those of the base, and its path,
up to the query, is the target path, which has no dot segment. -/
structure IsTarget (b : HierarchicalUrl) (r : RelativePath) (result : Url) : Prop where
  serialized : result.serialized = (b.target r).text
  scheme : result.scheme = b.scheme
  authority : result.authority = b.authority
  path : result.path = b.targetPath r ++ r.query
  noDots : ∀ s ∈ segmentsOf (b.targetPath r), s ≠ lit "." ∧ s ≠ lit ".."

theorem exists_parse_target (b : HierarchicalUrl) (r : RelativePath) :
    ∃ result, Url.parse (b.target r).text = some result ∧ IsTarget b r result := by
  have hsplit : splitAuthority (b.authority ++ (b.targetPath r ++ r.query)) =
      (b.authority, b.targetPath r ++ r.query) := by
    refine splitAuthority_append b.slash_not_mem_authority ?_
    rw [List.head?_append, head?_targetPath]
    rfl
  refine ⟨_, (b.target r).parse_text, rfl, rfl, ?_, ?_, forall_segmentsOf_targetPath b r⟩
  · exact congrArg Prod.fst hsplit
  · exact congrArg Prod.snd hsplit

/-- The segments in front of the last slash of the base, which may be in its query. -/
def HierarchicalUrl.scanned (b : HierarchicalUrl) : List Bytes :=
  (segmentsOf (b.path ++ b.query)).dropLast

/-- **When `resolve` follows section 5.2**: a base without a path has no query; the path of the
reference does not end in a dot segment; the query and the fragment of the reference have no dot
segment between two slashes; and no `..` is at the root when the loops go through the base, up to
its last slash, and then through the reference, and they come to the same segments as section
5.2.4 does from the directory of the base's path. -/
structure Resolvable (b : HierarchicalUrl) (r : RelativePath) : Prop where
  query_eq_nil : b.path = [] → b.query = []
  last : ∀ s ∈ (r.path.splitOn (chr '/')).getLast?, s ≠ lit "." ∧ s ≠ lit ".."
  rest : ∀ s ∈ ((r.query ++ r.fragment).splitOn (chr '/')).tail.dropLast,
    s ≠ lit "." ∧ s ≠ lit ".."
  settle_eq : settle [] (b.scanned ++ (r.path.splitOn (chr '/')).dropLast) =
    some (climb [] (b.directory ++ (r.path.splitOn (chr '/')).dropLast))

/-- The test finds a scheme only where there is one. -/
theorem hasScheme_of_test {reference : Bytes} (h : hasScheme reference = true) :
    HasScheme reference := by
  rw [hasScheme] at h
  cases hcolon : reference.findIdx? (· == chr ':') with
  | none =>
    rw [hcolon] at h
    cases h
  | some schemeEnd =>
    rw [hcolon] at h
    dsimp only at h
    rw [Bool.and_eq_true, decide_eq_true_eq] at h
    obtain ⟨hlt, hget, hfirst⟩ := List.findIdx?_eq_some_iff_getElem.mp hcolon
    refine ⟨reference.take schemeEnd, reference.drop (schemeEnd + 1), ?_, ?_, fun c hc hmem => ?_⟩
    · rw [← beq_iff_eq.mp hget, ← List.drop_eq_getElem_cons hlt, List.take_append_drop]
    · rw [Ne, List.take_eq_nil_iff, not_or]
      refine ⟨Nat.ne_of_gt h.1, ?_⟩
      rintro rfl
      exact Nat.not_lt_zero _ hlt
    · obtain ⟨i, hi, rfl⟩ := List.getElem_of_mem hc
      rw [List.length_take] at hi
      have hi' : i < schemeEnd := hi.trans_le (Nat.min_le_left _ _)
      rw [List.getElem_take] at hmem
      have hlen : i < reference.length := hi'.trans hlt
      have hcases : reference[i] = chr ':' ∨
          (reference[i] == chr '/' || reference[i] == chr '?' || reference[i] == chr '#') = true := by
        rw [show lit ":/?#" = [chr ':', chr '/', chr '?', chr '#'] from rfl, List.mem_cons,
          List.mem_cons, List.mem_cons, List.mem_singleton] at hmem
        rw [Bool.or_eq_true, Bool.or_eq_true, beq_iff_eq, beq_iff_eq, beq_iff_eq, or_assoc]
        exact hmem
      rcases hcases with hc' | hc'
      · exact hfirst i hi' (beq_iff_eq.mpr hc')
      · have hdelimiter := h.2
        cases hfind : reference.findIdx? (fun c => c == chr '/' || c == chr '?' || c == chr '#') with
        | none =>
          have hnone := List.findIdx?_eq_none_iff.mp hfind _ (List.getElem_mem hlen)
          rw [hnone] at hc'
          cases hc'
        | some delimiter =>
          rw [hfind] at hdelimiter
          have hlt' := of_decide_eq_true hdelimiter
          exact (List.findIdx?_eq_some_iff_getElem.mp hfind).2.2 i (hi'.trans hlt') hc'

/-- The loops are come to, with the segments of the base up to its last slash and those of the
reference. -/
theorem mergedPath_relativePath {base : Url} (habsolute : base.isAbsolute = true)
    (hpath : base.path.head? = some (chr '/')) (r : RelativePath) :
    base.mergedPath r.text = some
      (pathOf ((segmentsOf base.path).dropLast ++ r.text.splitOn (chr '/'))) := by
  have hscheme : ¬ hasScheme r.text = true := fun h => r.noScheme (hasScheme_of_test h)
  rw [← directory_append hpath]
  obtain ⟨front, rest, hfront⟩ := List.exists_cons_of_ne_nil r.path_ne_nil
  have hslash : front ≠ chr '/' := r.path_head front (by rw [hfront]; rfl)
  have hhash : front ≠ chr '#' := by
    rintro rfl
    exact r.path_free _ (by rw [hfront]; exact List.mem_cons_self) (by decide)
  have htext : r.text = front :: (rest ++ (r.query ++ r.fragment)) := by
    rw [RelativePath.text, hfront, List.cons_append]
  rw [htext] at hscheme ⊢
  rw [Url.mergedPath, if_neg]
  rintro (h | h | h | h | h)
  · exact hhash h
  · exact hscheme h
  · exact hslash (List.cons.inj h).1
  · rw [habsolute] at h
    cases h
  · exact hslash h

/-- What a relative path is resolved to, in the segments that the loops leave. -/
theorem resolve_relativePath {base : Url} (habsolute : base.isAbsolute = true)
    (hpath : base.path.head? = some (chr '/')) {r : RelativePath} {interior : List Bytes}
    {last : Bytes}
    (hsegments : (segmentsOf base.path).dropLast ++ r.text.splitOn (chr '/') =
      interior ++ [last]) :
    base.resolve r.text = (settle [] interior).bind fun out =>
      Url.parse (base.scheme ++ lit "://" ++ base.authority ++ pathOf (out ++ [last])) := by
  have hfree : SlashFree (interior ++ [last]) := by
    rw [← hsegments]
    refine SlashFree.append (fun s hs => ?_) fun s hs => not_mem_of_mem_splitOn hs
    exact slashFree_segmentsOf _ s (List.mem_of_mem_dropLast hs)
  rw [resolve_of_mergedPath (mergedPath_relativePath habsolute hpath r), hsegments,
    removeDotDot_removeDot hfree]
  cases settle [] interior with
  | none => rfl
  | some out => rfl

/-- A base without a path whose query the engine takes for a part of the authority. -/
theorem not_isTarget_of_query {b : HierarchicalUrl} {r : RelativePath} {base result : Url}
    (hbase : Url.parse b.text = some base) (hpath : b.path = []) (hquery : b.query ≠ [])
    {path : Bytes}
    (hparse : Url.parse (base.scheme ++ lit "://" ++ base.authority ++ path) = some result) :
    ¬ IsTarget b r result := by
  intro htarget
  obtain ⟨c, query, hcons⟩ := List.exists_cons_of_ne_nil hquery
  have hc : c = chr '?' := b.query_head c (by rw [hcons]; rfl)
  have hfront : chr '/' ∉ b.authority ++ [c] := by
    rw [List.mem_append, List.mem_singleton, not_or, hc]
    exact ⟨b.slash_not_mem_authority, by decide⟩
  have hsplit : b.authority ++ (b.path ++ b.query) = (b.authority ++ [c]) ++ query := by
    rw [hpath, hcons, List.nil_append, List.append_assoc, List.singleton_append]
  rw [b.parse_text, hsplit, splitAuthority_append_left hfront] at hbase
  have hserialized := serialized_of_parse hparse
  rw [htarget.serialized, ← Option.some.inj hbase] at hserialized
  simp only [HierarchicalUrl.text, HierarchicalUrl.target, List.append_assoc] at hserialized
  have hhead := congrArg List.head? (List.append_cancel_left (List.append_cancel_left
    (List.append_cancel_left hserialized)))
  rw [List.head?_append, head?_targetPath, hc] at hhead
  exact absurd (Option.some.inj hhead) (by decide)

/-! ### The segments of a reference -/

section Segments

variable {b : HierarchicalUrl} {r : RelativePath} {front rest : List Bytes} {last first : Bytes}

theorem query_append_fragment (hrest : (r.query ++ r.fragment).splitOn (chr '/') = first :: rest) :
    r.query ++ r.fragment = first ++ pathOf rest := by
  have hrooted := rooted_splitOn (chr '/') (r.query ++ r.fragment)
  rw [hrest, rooted_cons, List.cons.injEq] at hrooted
  exact hrooted.2.symm

theorem head?_query_append_fragment (r : RelativePath) :
    ∀ c ∈ (r.query ++ r.fragment).head?, c = chr '?' ∨ c = chr '#' := by
  intro c hc
  cases hq : r.query with
  | nil =>
    rw [hq, List.nil_append] at hc
    exact Or.inr (r.fragment_head c hc)
  | cons d query =>
    rw [hq] at hc
    exact Or.inl (r.query_head c (by rw [hq]; exact hc))

/-- A segment that runs into the query is no dot segment. -/
theorem not_isDot_append_query (hrest : (r.query ++ r.fragment).splitOn (chr '/') = first :: rest)
    (hne : rest ≠ []) : last ++ first ≠ lit "." ∧ last ++ first ≠ lit ".." := by
  have hquery := head?_query_append_fragment r
  rw [query_append_fragment hrest] at hquery
  have hnil : first ≠ [] := by
    rintro rfl
    obtain ⟨t, back, rfl⟩ := List.exists_cons_of_ne_nil hne
    rcases hquery _ rfl with h | h <;> exact absurd h (by decide)
  refine isDot_append (fun c hc => hquery c ?_) hnil
  rw [List.head?_append, Option.mem_def.mp hc]
  rfl

/-- The condition, on the segments. -/
theorem resolvable_iff_segments (hpath : r.path.splitOn (chr '/') = front ++ [last])
    (hrest : (r.query ++ r.fragment).splitOn (chr '/') = first :: rest) :
    Resolvable b r ↔ (b.path = [] → b.query = []) ∧
      (last ≠ lit "." ∧ last ≠ lit "..") ∧ (∀ t ∈ rest.dropLast, t ≠ lit "." ∧ t ≠ lit "..") ∧
        settle [] (b.scanned ++ front) = some (climb [] (b.directory ++ front)) := by
  constructor
  · rintro ⟨hquery, hlast, hdots, hsettle⟩
    rw [hpath] at hlast hsettle
    rw [List.getLast?_concat] at hlast
    rw [List.dropLast_concat] at hsettle
    rw [hrest] at hdots
    exact ⟨hquery, hlast last rfl, hdots, hsettle⟩
  · rintro ⟨hquery, hlast, hdots, hsettle⟩
    refine ⟨hquery, ?_, ?_, ?_⟩
    · rw [hpath, List.getLast?_concat]
      rintro t ht
      rwa [← Option.some.inj ht]
    · rwa [hrest]
    · rwa [hpath, List.dropLast_concat]

/-- The target, in the segments that remain. -/
theorem targetPath_append_query {out : List Bytes} {s : Bytes}
    (hpath : r.path.splitOn (chr '/') = front ++ [last])
    (hrest : (r.query ++ r.fragment).splitOn (chr '/') = first :: rest)
    (hclimb : climbLast (climb [] (b.directory ++ front)) last = out ++ [s]) :
    b.targetPath r ++ (r.query ++ r.fragment) = pathOf (out ++ (s ++ first) :: rest) := by
  rw [targetPath_eq b hpath, hclimb, query_append_fragment hrest, pathOf, pathOf, pathOf,
    rooted_append, rooted_append, rooted_singleton, rooted_cons, List.append_assoc,
    List.cons_append, List.append_assoc]

theorem slashFree_target {out : List Bytes} {s : Bytes}
    (hpath : r.path.splitOn (chr '/') = front ++ [last])
    (hrest : (r.query ++ r.fragment).splitOn (chr '/') = first :: rest)
    (hclimb : climbLast (climb [] (b.directory ++ front)) last = out ++ [s]) :
    SlashFree (out ++ (s ++ first) :: rest) := by
  have hfreeRest : SlashFree (first :: rest) := fun u hu => not_mem_of_mem_splitOn (hrest ▸ hu)
  have hfreeOut : SlashFree (out ++ [s]) := hclimb ▸ slashFree_climbLast b hpath
  intro t ht
  rcases List.mem_append.mp ht with ht | ht
  · exact hfreeOut t (List.mem_append_left _ ht)
  · rcases List.mem_cons.mp ht with rfl | ht
    · rw [List.mem_append, not_or]
      exact ⟨hfreeOut s (List.mem_append_right _ (List.mem_singleton_self s)),
        hfreeRest first List.mem_cons_self⟩
    · exact hfreeRest t (List.mem_cons_of_mem _ ht)

end Segments

/-- Where the base has a path or no query, the engine sees its authority and its path. -/
theorem parse_base {b : HierarchicalUrl} {base : Url} (hbase : Url.parse b.text = some base)
    (hquery : b.path = [] → b.query = []) : base.scheme = b.scheme ∧
      base.authority = b.authority ∧ (segmentsOf base.path).dropLast = b.scanned := by
  have hparts := b.parse_text
  rw [hbase, Option.some.injEq] at hparts
  have hsplit : splitAuthority (b.authority ++ (b.path ++ b.query)) =
      (b.authority, (splitAuthority (b.path ++ b.query)).2) ∧
        (segmentsOf (splitAuthority (b.path ++ b.query)).2).dropLast = b.scanned := by
    rw [splitAuthority_append_left b.slash_not_mem_authority]
    by_cases hnil : b.path = []
    · rw [HierarchicalUrl.scanned, hnil, hquery hnil]
      exact ⟨by rw [show (splitAuthority ([] ++ [])).1 = [] from rfl, List.append_nil], by decide⟩
    · obtain ⟨c, path, hcons⟩ := List.exists_cons_of_ne_nil hnil
      have hc : c = chr '/' := b.path_head c (by rw [hcons]; rfl)
      have hslash : (b.path ++ b.query).head? = some (chr '/') := by
        rw [hcons, hc]
        rfl
      have hself := splitAuthority_append List.not_mem_nil hslash
      rw [List.nil_append] at hself
      rw [hself, List.append_nil]
      exact ⟨rfl, rfl⟩
  refine ⟨by rw [hparts], ?_, ?_⟩
  · rw [hparts]
    exact congrArg Prod.fst hsplit.1
  · rw [hparts]
    dsimp only
    rw [hsplit.1]
    exact hsplit.2

/-- A path of which the engine makes the target has the segments of the target. -/
theorem segments_of_isTarget {b : HierarchicalUrl} {r : RelativePath} {result : Url}
    {segments target : List Bytes} (hsegments : SlashFree segments) (htarget : SlashFree target)
    (heq : b.targetPath r ++ (r.query ++ r.fragment) = pathOf target)
    (hparse : Url.parse (b.scheme ++ lit "://" ++ b.authority ++ pathOf segments) = some result)
    (hresult : IsTarget b r result) : segments = target := by
  have hserialized := serialized_of_parse hparse
  rw [hresult.serialized] at hserialized
  simp only [HierarchicalUrl.text, HierarchicalUrl.target, List.append_assoc] at hserialized
  have hpaths := List.append_cancel_left (List.append_cancel_left
    (List.append_cancel_left hserialized))
  rw [heq] at hpaths
  exact rooted_injective hsegments htarget hpaths.symm

/-- **The target of RFC 3986 is reached exactly under the condition.** -/
theorem isTarget_iff_resolvable {b : HierarchicalUrl} {base : Url}
    (hbase : Url.parse b.text = some base) (r : RelativePath) :
    (∃ result, base.resolve r.text = some result ∧ IsTarget b r result) ↔ Resolvable b r := by
  have habsolute : base.isAbsolute = true := by
    have hparts := b.parse_text
    rw [hbase, Option.some.injEq] at hparts
    rw [Url.isAbsolute, hparts, Bool.not_eq_true', List.isEmpty_eq_false_iff]
    exact b.scheme_ne_nil
  have hhead := head?_path_of_parse hbase habsolute
  obtain ⟨front, last, hpath⟩ := exists_splitOn r.path
  obtain ⟨first, rest, hrest⟩ := List.exists_cons_of_ne_nil
    (List.splitOn_ne_nil (chr '/') (r.query ++ r.fragment))
  obtain ⟨out, s, hclimb, -⟩ := climbLast_eq (climb [] (b.directory ++ front)) last
  have htargetPath := targetPath_append_query hpath hrest hclimb
  rw [resolvable_iff_segments hpath hrest]
  by_cases hquery : b.path = [] → b.query = []
  · obtain ⟨hscheme, hauthority, hscanned⟩ := parse_base hbase hquery
    have hsegments : (segmentsOf base.path).dropLast ++ r.text.splitOn (chr '/') =
        (b.scanned ++ front ++ ((last ++ first) :: rest).dropLast) ++
          [((last ++ first) :: rest).getLastD []] := by
      obtain ⟨before, end', hend⟩ := (List.eq_nil_or_concat' ((last ++ first) :: rest)).resolve_left
        (List.cons_ne_nil _ _)
      have htext : r.text.splitOn (chr '/') = front ++ (last ++ first) :: rest :=
        splitOn_append hpath hrest
      rw [hscanned, htext, hend, List.dropLast_concat, List.getLastD_concat, List.append_assoc,
        List.append_assoc]
    have hresolve := resolve_relativePath habsolute hhead hsegments
    rw [hscheme, hauthority] at hresolve
    have hfree : SlashFree ((b.scanned ++ front ++ ((last ++ first) :: rest).dropLast) ++
        [((last ++ first) :: rest).getLastD []]) := by
      rw [← hsegments]
      refine SlashFree.append (fun t ht => ?_) fun t ht => not_mem_of_mem_splitOn ht
      exact slashFree_segmentsOf _ t (List.mem_of_mem_dropLast ht)
    rw [← settle_append_eq_iff (not_isDot_append_query hrest) hclimb]
    constructor
    · rintro ⟨result, hresult, htarget⟩
      rw [hresolve] at hresult
      obtain ⟨left, hleft, hparse⟩ := Option.bind_eq_some_iff.mp hresult
      have hfreeLeft : SlashFree (left ++ [((last ++ first) :: rest).getLastD []]) := by
        intro t ht
        rcases List.mem_append.mp ht with ht | ht
        · exact hfree t (List.mem_append_left _ (subset_of_settle hleft ht))
        · exact hfree t (List.mem_append_right _ ht)
      exact ⟨hquery, left, hleft, segments_of_isTarget hfreeLeft
        (slashFree_target hpath hrest hclimb) htargetPath hparse htarget⟩
    · rintro ⟨-, left, hleft, heq⟩
      obtain ⟨result, hparse, htarget⟩ := exists_parse_target b r
      refine ⟨result, ?_, htarget⟩
      rw [hresolve, hleft, Option.bind_some, heq, ← htargetPath, ← hparse]
      simp only [HierarchicalUrl.text, HierarchicalUrl.target, List.append_assoc]
  · refine iff_of_false ?_ (fun h => hquery h.1)
    rw [Classical.not_imp] at hquery
    rintro ⟨result, hresult, htarget⟩
    rw [resolve_of_mergedPath (mergedPath_relativePath habsolute hhead r)] at hresult
    obtain ⟨path, -, hparse⟩ := Option.bind_eq_some_iff.mp hresult
    exact not_isTarget_of_query hbase hquery.1 hquery.2 hparse htarget

/-- **`Url::resolve` returns exactly if no `..` in front of the last segment is at the root, and
resolves a relative path as RFC 3986 does exactly under the condition.** -/
theorem resolve_iff {text : Bytes} {base : Url} (hbase : Url.parse text = some base)
    (reference : Bytes) :
    ((∀ path, base.mergedPath reference = some path →
        ∃ path', Loop.Ends dotDotStep (removeDot path) path') ↔
      ∀ path, base.mergedPath reference = some path →
        settle [] (segmentsOf path).dropLast ≠ none) ∧
    ∀ (b : HierarchicalUrl) (r : RelativePath), b.text = text → r.text = reference →
      ((∃ result, base.resolve reference = some result ∧ IsTarget b r result) ↔
        Resolvable b r) := by
  constructor
  · exact forall_congr' fun path => imp_congr_right fun h => ends_mergedPath_iff hbase h
  · rintro b r rfl rfl
    exact isTarget_iff_resolvable hbase r

/-- `http://h/a/b`. -/
def plainBase : HierarchicalUrl where
  scheme := lit "http"
  authority := lit "h"
  path := lit "/a/b"
  query := []
  fragment := []
  scheme_ne_nil := by decide
  scheme_free := by decide
  authority_free := by decide
  path_head := by decide
  path_free := by decide
  query_head := by decide
  query_free := by decide
  fragment_head := by decide

/-- `../c`. -/
def upward : RelativePath where
  path := lit "../c"
  query := []
  fragment := []
  path_ne_nil := by decide
  path_head := by decide
  path_free := by decide
  query_head := by decide
  query_free := by decide
  fragment_head := by decide
  noScheme := by
    rintro ⟨scheme, rest, heq, -⟩
    have hmem : chr ':' ∈ lit "../c" ++ ([] ++ []) := by
      rw [heq]
      exact List.mem_append_right _ List.mem_cons_self
    exact absurd hmem (by decide)

/-- `../c` against `http://h/a/b`. -/
theorem resolve_upward : ∃ base, Url.parse (lit "http://h/a/b") = some base ∧
    ∃ result, base.resolve (lit "../c") = some result ∧ IsTarget plainBase upward result := by
  have hbase : Url.parse (lit "http://h/a/b") = some {
      serialized := lit "http://h/a/b"
      scheme := lit "http"
      authority := lit "h"
      path := lit "/a/b" } := by decide +kernel
  have hresolvable : Resolvable plainBase upward :=
    ⟨by decide, by decide +kernel, by decide +kernel, by decide +kernel⟩
  exact ⟨_, hbase, ((resolve_iff hbase (lit "../c")).2 plainBase upward (by decide)
    (by decide)).mpr hresolvable⟩

/-- `../c` against `http://h/` keeps the second loop going for ever. -/
theorem not_ends_resolve_aboveRoot :
    ¬ ∀ (text : Bytes) (base : Url), Url.parse text = some base →
      ∀ reference path, base.mergedPath reference = some path →
        ∃ path', Loop.Ends dotDotStep (removeDot path) path' := by
  intro h
  have hbase : Url.parse (lit "http://h/") = some {
      serialized := lit "http://h/"
      scheme := lit "http"
      authority := lit "h"
      path := lit "/" } := by decide +kernel
  have hdot : dotStep (lit "/../c") = none := by decide +kernel
  have hstart : (lit "/../c").take 4 = lit "/../" := by decide
  have hmerged : Url.mergedPath {
      serialized := lit "http://h/"
      scheme := lit "http"
      authority := lit "h"
      path := lit "/" } (lit "../c") = some (lit "/../c") := by decide +kernel
  obtain ⟨path', hends⟩ := h _ _ hbase _ _ hmerged
  rw [removeDot_of_none hdot, ends_dotDotStep_iff, removeDotDot_of_isPrefix hstart] at hends
  cases hends

end Aetheris.Net
