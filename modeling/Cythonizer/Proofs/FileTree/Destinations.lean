import Cythonizer.Proofs.Path.Joining
import Cythonizer.Proofs.Project.Walk

namespace Cythonizer.Proofs.FileTree.Destinations

open Cythonizer.FileTree.Access
open Cythonizer.FileTree.Basic
open Cythonizer.FileTree.Resolution
open Cythonizer.Path.Basic
open Cythonizer.Text.Pieces
open Cythonizer.Proofs.FileTree.Frames
open Cythonizer.Proofs.Path.Joining
open Cythonizer.Proofs.Path.Names
open Cythonizer.Proofs.Path.Relative

variable {tree : FileTree} {followLast : Bool} {here location : Location} {node : Node}
    {path other : Path}

def stepTo (here : Location) : Component → Location
  | .root => []
  | .current => here
  | .parent => here.tail
  | .name text => String.ofList text :: here

/-- The place that a path leads to if no link is on the way. -/
def destination (here : Location) (path : Path) : Location :=
  path.components.foldl stepTo here

def follow (here : Location) (pieces : List (List Char)) : Location :=
  (componentsOf pieces).foldl stepTo here

theorem follow_append (a b : List (List Char)) :
    follow here (a ++ b) = follow (follow here a) b := by
  rw [follow, componentsOf_append, List.foldl_append]
  rfl

theorem follow_idle {piece : List Char} (rest : List (List Char)) (h : isIdle piece = true) :
    follow here (piece :: rest) = follow here rest := by
  rw [follow, componentsOf_idle rest h]
  rfl

theorem follow_parent (rest : List (List Char)) :
    follow here (['.', '.'] :: rest) = follow here.tail rest := by
  rw [follow, componentsOf_cons rest (by decide)]
  rfl

theorem follow_name {piece : List Char} (rest : List (List Char)) (h : IsProper piece) :
    follow here (piece :: rest) = follow (String.ofList piece :: here) rest := by
  rw [follow, componentsOf_cons rest (isIdle_eq_false h), ofPiece_of_proper h]
  rfl

theorem follow_all_idle {pieces : List (List Char)} (h : ∀ piece ∈ pieces, isIdle piece = true) :
    follow here pieces = here := by
  rw [follow, componentsOf_all_idle h]
  rfl

theorem destination_eq_follow (here : Location) (path : Path) :
    destination here path = follow (startOf here path) (pieces '/' path.chars) := by
  unfold destination follow startOf
  rcases components_cases path with h | ⟨habsolute, h⟩
  · rw [h, List.foldl_append]
    cases path.isAbsolute <;> rfl
  · rw [h, habsolute]
    rfl

theorem destination_of_ends {front name : List Char} (h : Ends path front name) :
    destination here path = follow (follow (startOf here path) (above front)) [name] := by
  rw [destination_eq_follow, h.pieces, follow_append]

theorem startOf_join (h : other.isAbsolute = false) :
    startOf here (path.join other) = startOf here path := by
  unfold startOf
  congr 1
  rcases chars_join path h with ⟨hempty, hjoined⟩ | ⟨front, idle, hfilled, hpath, hidle, hjoined⟩
  · rw [Path.isAbsolute, hjoined, ← Path.isAbsolute, h]
    simp [Path.isAbsolute, hempty]
  · have hhead : (path.join other).chars.head? = path.chars.head? := by
      rw [hjoined, hpath]
      cases front with
      | nil =>
          obtain rfl : idle = ['/'] := hidle.resolve_left (by rintro rfl; exact hfilled hpath)
          rfl
      | cons c rest => rfl
    rw [Path.isAbsolute, Path.isAbsolute, hhead]

theorem destination_join (h : other.isAbsolute = false) :
    destination here (path.join other) = follow (destination here path)
      (pieces '/' other.chars) := by
  rw [destination_eq_follow, startOf_join h, destination_eq_follow]
  rcases chars_join path h with ⟨hempty, hjoined⟩ | ⟨front, idle, -, hpath, hidle, hjoined⟩
  · rw [hjoined, hempty, @follow_all_idle _ (pieces '/' []) (by simp [pieces, isIdle])]
  · rw [hjoined, hpath, pieces_append, follow_append]
    rcases hidle with rfl | rfl
    · rw [List.append_nil]
    · rw [pieces_append, follow_append, @follow_all_idle _ (pieces '/' [])
        (by simp [pieces, isIdle])]

theorem head?_ne_of_pieces {text first : List Char} {rest : List (List Char)}
    (h : pieces '/' text = first :: rest) (hfirst : first ≠ []) :
    (text.head? == some '/') = false := by
  cases text with
  | nil => rfl
  | cons c text =>
      have hc : c ≠ '/' := by
        rintro rfl
        rw [pieces, if_pos rfl, List.cons.injEq] at h
        exact hfirst h.1.symm
      simpa using hc

/-- The path of the first pieces of a path starts where it does, and has these pieces up to idle
ones. -/
theorem startOf_front {text : List Char} {front : List (List Char)}
    (hfront : front <+: pieces '/' (body text))
    (hlast : ∀ last ∈ front.getLast?, isIdle last = false) :
    startOf here (.ofChars (anchorText text ++ spread '/' front)) = startOf here (.ofChars text) ∧
      componentsOf (pieces '/' (anchorText text ++ spread '/' front)) = componentsOf front := by
  have hchars : ∀ text, (Path.ofChars text).chars = text := fun text => String.toList_ofList
  rw [startOf, startOf, Path.isAbsolute, Path.isAbsolute, hchars, hchars]
  rcases front with _ | ⟨first, rest⟩
  · unfold anchorText anchor
    split
    · exact ⟨rfl, by simp [spread, pieces, componentsOf, isIdle]⟩
    · exact ⟨rfl, by simp [spread, pieces, componentsOf, isIdle]⟩
    · exact ⟨rfl, by simp [spread, pieces, componentsOf, isIdle]⟩
    · rename_i hslash _ _
      have hhead : (text.head? == some '/') = false := by
        cases text with
        | nil => rfl
        | cons c rest => simpa using fun hc => hslash rest (by rw [hc])
      rw [hhead]
      exact ⟨rfl, by simp [spread, pieces, componentsOf, isIdle]⟩
  · have hpieces : pieces '/' (spread '/' (first :: rest)) = first :: rest :=
      pieces_spread (by simp) fun piece hpiece => not_mem_of_mem_pieces (hfront.subset hpiece)
    obtain ⟨more, hmore⟩ := hfront
    cases hanchor : anchor text with
    | none =>
        have hbody : body text = text := by simp [body, hanchor]
        have htext : text ≠ [] := by
          rintro rfl
          obtain ⟨rfl, hnil⟩ : first = [] ∧ rest ++ more = [] :=
            by simpa [hbody, pieces] using hmore
          rw [List.append_eq_nil_iff] at hnil
          obtain ⟨rfl, rfl⟩ := hnil
          cases hlast [] rfl
        obtain ⟨piece, others, hothers, hidle⟩ := exists_first_piece hanchor htext
        rw [hbody, hothers, List.cons_append, List.cons.injEq] at hmore
        have hpiece : piece ≠ [] := by
          rintro rfl
          cases hidle
        rw [show anchorText text = [] by simp [anchorText, hanchor], List.nil_append,
          head?_ne_of_pieces hpieces (hmore.1 ▸ hpiece), head?_ne_of_pieces hothers hpiece, hpieces]
        exact ⟨rfl, rfl⟩
    | some component =>
        unfold anchor at hanchor
        split at hanchor
        · cases hanchor
          rw [show ∀ text, anchorText ('/' :: text) = ['/'] from fun _ =>
            rfl, List.singleton_append, pieces,
            if_pos rfl, hpieces, componentsOf_idle _ rfl]
          exact ⟨rfl, rfl⟩
        · obtain ⟨rfl, hnil⟩ : first = [] ∧ rest ++ more = [] := by
            simpa [body, anchor, pieces] using hmore
          rw [List.append_eq_nil_iff] at hnil
          obtain ⟨rfl, rfl⟩ := hnil
          cases hlast [] rfl
        · rename_i text
          cases hanchor
          obtain ⟨rfl, hmore⟩ : first = [] ∧ rest ++ more = pieces '/' text := by
            simpa [body, anchor, pieces] using hmore
          have hrest : rest ≠ [] := by
            rintro rfl
            cases hlast [] rfl
          rw [spread_cons [] hrest, List.nil_append, pieces, if_pos rfl, List.cons.injEq] at hpieces
          have hdot : pieces '/' ('.' :: '/' :: spread '/' rest) = ['.'] :: rest := by
            simp [pieces, hpieces.2]
          rw [show ∀ text, anchorText ('.' :: '/' :: text) = ['.'] from fun _ =>
            rfl, spread_cons [] hrest,
            List.nil_append, List.singleton_append, hdot, componentsOf_idle _ rfl,
              componentsOf_idle _ rfl]
          exact ⟨rfl, rfl⟩
        · cases hanchor

theorem anchor_ne_name (text name : List Char) : anchor text ≠ some (.name name) := by
  unfold anchor
  split <;> simp

theorem exists_of_fileName {name : String} (h : path.fileName? = some name) :
    ∃ front, dropIdleEnd (pieces '/' (body path.chars)) = front ++ [name.toList] ∧
      IsProper name.toList ∧
      path.components = (anchor path.chars).toList ++ componentsOf front ++
        [.name name.toList] := by
  have hcomponents : path.components = (anchor path.chars).toList ++
      componentsOf (dropIdleEnd (pieces '/' (body path.chars))) := by
    rw [componentsOf_dropIdleEnd]
    rfl
  have hlast : path.components.getLast? = some (.name name.toList) := by
    unfold Path.fileName? at h
    split at h
    · rename_i text hlast
      cases h
      rw [hlast, String.toList_ofList]
    · cases h
  rcases List.eq_nil_or_concat (dropIdleEnd (pieces '/' (body path.chars))) with
    hnil | ⟨front, last, hfront⟩
  · rw [hcomponents, hnil] at hlast
    cases hanchor : anchor path.chars with
    | none => simp [hanchor, componentsOf] at hlast
    | some component =>
        have hname : component = .name name.toList := by simpa [hanchor, componentsOf] using hlast
        exact absurd (hname ▸ hanchor) (anchor_ne_name _ _)
  · rw [List.concat_eq_append] at hfront
    have hpiece : componentsOf [last] = [Component.ofPiece last] :=
      componentsOf_cons [] (isIdle_last hfront)
    rw [hfront, componentsOf_append, hpiece, ← List.append_assoc] at hcomponents
    rw [hcomponents, List.getLast?_concat, Option.some.injEq] at hlast
    have hmem : Component.name name.toList ∈ componentsOf [last] := by
      rw [hpiece, hlast]
      exact List.mem_singleton_self _
    obtain ⟨hlast', hproper⟩ := mem_of_name_mem hmem
    rw [List.mem_singleton] at hlast'
    subst hlast'
    exact ⟨front, hfront, hproper, by rw [hcomponents, hlast]⟩

theorem noSlash_of_fileName {name : String} (h : path.fileName? = some name) :
    '/' ∉ name.toList := by
  obtain ⟨front, hfront, -⟩ := exists_of_fileName h
  obtain ⟨idle, hpieces, -⟩ := exists_dropIdleEnd (pieces '/' (body path.chars))
  have hmem : name.toList ∈ pieces '/' (body path.chars) := by
    rw [hpieces, hfront]
    simp
  exact not_mem_of_mem_pieces hmem

theorem componentsOf_body (text : List Char) :
    componentsOf (pieces '/' (body text)) = componentsOf (pieces '/' text) := by
  unfold body anchor
  split
  · simp [pieces, componentsOf, isIdle]
  · simp [pieces, componentsOf, isIdle]
  · simp [pieces, componentsOf, isIdle]
  · rfl

/-- The path without its file name starts where the path does, and its pieces are those before the
name, up to idle ones. -/
theorem parent_pieces {name : String} (h : path.fileName? = some name) :
    ∃ parent, path.parent? = some parent ∧ parent.chars <+: path.chars ∧
      (∀ here, startOf here parent = startOf here path) ∧
      componentsOf (pieces '/' path.chars) =
        componentsOf (pieces '/' parent.chars) ++ [.name name.toList] := by
  obtain ⟨front, hfront, hname, hcomponents⟩ := exists_of_fileName h
  obtain ⟨idle, hpieces, hidle⟩ := exists_dropIdleEnd (pieces '/' (body path.chars))
  obtain ⟨more, hmore, -⟩ := exists_dropIdleEnd front
  have hlast : ∀ last ∈ (dropIdleEnd front).getLast?, isIdle last = false := by
    intro last hmem
    obtain ⟨before, hbefore⟩ := List.getLast?_eq_some_iff.mp hmem
    exact isIdle_last hbefore
  have hfront' : dropIdleEnd front <+: pieces '/' (body path.chars) := by
    refine ⟨more ++ [name.toList] ++ idle, ?_⟩
    rw [hpieces, hfront]
    simp only [← List.append_assoc, ← hmore]
  have hpath : Path.ofChars path.chars = path := by
    cases path
    simp [Path.ofChars, Path.chars]
  refine ⟨.ofChars (anchorText path.chars ++ spread '/' (dropIdleEnd front)), ?_, ?_, fun here =>
    ?_, ?_⟩
  · rw [Path.parent?, hfront]
    simp
  · have hspread : spread '/' (dropIdleEnd front) <+: spread '/' (pieces '/' (body path.chars)) :=
      spread_prefix hfront'
    rw [spread_pieces] at hspread
    rw [Path.chars, Path.ofChars, String.toList_ofList]
    obtain ⟨more, hmore⟩ := hspread
    exact ⟨more, by rw [List.append_assoc, hmore, anchorText_append_body]⟩
  · rw [(startOf_front hfront' hlast).1, hpath]
  · have hparent := (@startOf_front [] _ _ hfront' hlast).2
    rw [show Path.chars (.ofChars (anchorText path.chars ++ spread '/' (dropIdleEnd front))) =
      anchorText path.chars ++ spread '/' (dropIdleEnd front) from String.toList_ofList, hparent,
      componentsOf_dropIdleEnd, ← componentsOf_body, hpieces, hfront, componentsOf_append,
      componentsOf_all_idle hidle, List.append_nil, componentsOf_append,
      componentsOf_cons [] (isIdle_eq_false hname), ofPiece_of_proper hname]
    rfl

theorem exists_parent {name : String} (h : path.fileName? = some name) :
    ∃ parent, path.parent? = some parent ∧
      ∀ here, destination here path = name :: destination here parent := by
  obtain ⟨parent, hparent, -, hstart, hcomponents⟩ := parent_pieces h
  refine ⟨parent, hparent, fun here => ?_⟩
  rw [destination_eq_follow, destination_eq_follow, hstart, follow, follow, hcomponents,
    List.foldl_append]
  simp [stepTo]

theorem descend_directory_iff (hlinks : HasNoLinks tree) (pieces : List (List Char)) :
    descend tree followLast here (pieces.filter fun piece => !isIdle piece) =
        .arrived (.found location .directory) ↔
      descend tree followLast here pieces = .arrived (.found location .directory) := by
  induction pieces generalizing here with
  | nil => rfl
  | cons piece rest ih =>
      rcases piece_cases piece with hidle | rfl | hname
      · rw [List.filter_cons_of_neg (by simp [hidle]), descend_idle _ hidle, ih]
      · rw [List.filter_cons_of_pos (by decide), descend_parent, descend_parent, ih]
      · rw [List.filter_cons_of_pos (by simp [isIdle_eq_false hname]), descend_name _ hname,
          descend_name _ hname]
        split
        · rfl
        · cases hnode : tree.node? (String.ofList piece :: here) with
          | none => constructor <;> (intro h; dsimp only at h; split at h <;> cases h)
          | some node =>
              cases node with
              | directory => exact ih
              | link target => exact absurd hnode (hlinks _ _)
              | file content mode =>
                  constructor <;> (intro h; dsimp only at h; split at h <;> cases h)

theorem descend_of_components {way other : List (List Char)} (hlinks : HasNoLinks tree)
    (hsame : componentsOf way = componentsOf other)
    (h : descend tree followLast here way = .arrived (.found location .directory)) :
    descend tree followLast here other = .arrived (.found location .directory) := by
  have hinjective : ∀ a b : List Char, Component.ofPiece a = Component.ofPiece b → a = b := by
    intro a b hab
    unfold Component.ofPiece at hab
    split at hab <;> split at hab <;> simp_all
  rw [← descend_directory_iff hlinks] at h ⊢
  rwa [← (List.map_inj_right (hinjective)).mp hsame]

theorem follow_of_descend {pieces : List (List Char)}
    (h : descend tree followLast here pieces = .arrived (.found location node)) :
    location = follow here pieces := by
  induction pieces generalizing here with
  | nil =>
      rw [descend] at h
      cases h
      rfl
  | cons piece rest ih =>
      rcases piece_cases piece with hidle | rfl | hname
      · rw [descend_idle _ hidle] at h
        rw [follow_idle _ hidle]
        exact ih h
      · rw [descend_parent] at h
        rw [follow_parent]
        exact ih h
      · rw [descend_name _ hname] at h
        rw [follow_name _ hname]
        split at h
        · cases h
        · split at h
          · split at h <;> cases h
          · exact ih h
          · split at h
            · rename_i hlast
              rw [Bool.and_eq_true, List.isEmpty_iff] at hlast
              cases h
              rw [hlast.1]
              rfl
            · cases h
          · split at h
            · rename_i hlast
              rw [List.isEmpty_iff] at hlast
              cases h
              rw [hlast]
              rfl
            · cases h

theorem destination_of_find (hlinks : HasNoLinks tree)
    (h : find tree here path = .ok (location, node)) : location = destination here path := by
  rw [destination_eq_follow]
  exact follow_of_descend ((find_eq_ok_iff hlinks).mp h).2.2

end Cythonizer.Proofs.FileTree.Destinations
