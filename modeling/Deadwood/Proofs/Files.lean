import Deadwood.Files.Store
import Mathlib.Data.List.TakeWhile
import Mathlib.Logic.Function.Basic

/-! Files and paths. Writing changes one file, and making directories changes none. A name with another
extension is another path. A path without a null byte can be looked up. -/
namespace Deadwood

namespace Store

/-- The bytes of the file at a path. A directory has none. -/
def file? (s : Store) (parts : List String) : Option (List UInt8) :=
  match s.find? parts with
  | some (.file bytes) => some bytes
  | _ => none

theorem lookup_filter_ne (entries : List (List String × Entry)) (parts q : List String) :
    (entries.filter fun x => x.1 != parts).lookup q = if q = parts then none else entries.lookup q := by
  induction entries with
  | nil => simp
  | cons x entries ih =>
    obtain ⟨name, e⟩ := x
    by_cases hname : name = parts
    · subst hname
      rw [List.filter_cons_of_neg (by simp), ih, List.lookup_cons]
      split
      · rfl
      · next hq => rw [beq_false_of_ne hq]
    · rw [List.filter_cons_of_pos (by simpa using hname), List.lookup_cons, List.lookup_cons, ih]
      by_cases hq : q = name
      · subst hq
        simp only [beq_self_eq_true, if_neg hname]
      · rw [beq_false_of_ne hq]

theorem find?_put (s : Store) (parts : List String) (e : Entry) {q : List String} (hq : q ≠ []) :
    (s.put parts e).find? q = if q = parts then some e else s.find? q := by
  have hempty : q.isEmpty = false := by simpa using hq
  simp only [find?, put, hempty, Bool.false_eq_true, if_false, List.lookup_append, lookup_filter_ne]
  by_cases hparts : q = parts
  · simp [hparts]
  · simp [hparts, List.lookup_cons, beq_false_of_ne hparts]

theorem file?_put_of_ne (s : Store) {parts q : List String} (e : Entry) (hq : q ≠ parts) :
    (s.put parts e).file? q = s.file? q := by
  by_cases hnil : q = []
  · subst hnil
    rfl
  · rw [file?, find?_put s parts e hnil, if_neg hq, file?]

theorem find?_of_walk {s : Store} {here rest : List String} {e? : Option Entry}
    (h : s.walk here rest = .ok e?) : s.find? (here ++ rest) = e? := by
  induction rest generalizing here with
  | nil =>
    rw [List.append_nil]
    exact Except.ok.inj h
  | cons c rest ih =>
    rw [walk] at h
    split at h
    · rw [← List.singleton_append, ← List.append_assoc]
      exact ih h
    · cases h
    · cases h

theorem find?_of_look {s : Store} {parts : List String} {e? : Option Entry} (h : s.look parts = .ok e?) :
    s.find? parts = e? := by
  unfold look at h
  split at h
  · cases h
  · exact find?_of_walk h

theorem ne_nil_of_look {s : Store} {parts : List String} {e? : Option Entry} (h : s.look parts = .ok e?)
    (he : e? ≠ some .directory) : parts ≠ [] := by
  rintro rfl
  exact he (Except.ok.inj h).symm

theorem file?_put {s : Store} {parts : List String} (hparts : parts ≠ []) (bytes : List UInt8) :
    (s.put parts (.file bytes)).file? = Function.update s.file? parts (some bytes) := by
  funext q
  by_cases hq : q = parts
  · subst hq
    rw [Function.update_self, file?, find?_put s q _ hparts, if_pos rfl]
  · rw [Function.update_of_ne hq, file?_put_of_ne s _ hq]

theorem create_eq_ok {s t : Store} {parts : List String} (h : s.create parts = .ok t) :
    parts ≠ [] ∧ t = s.put parts (.file []) := by
  unfold create at h
  split at h
  · cases h
  · cases h
  · next e? hfile hlook => exact ⟨ne_nil_of_look hlook hfile, (Except.ok.inj h).symm⟩

/-- A file that is opened to be written is there, and empty. -/
theorem file?_create {s t : Store} {parts : List String} (h : s.create parts = .ok t) :
    t.file? = Function.update s.file? parts (some []) := by
  obtain ⟨hparts, rfl⟩ := create_eq_ok h
  exact file?_put hparts []

/-- A file that is opened and then written holds what is written. -/
theorem file?_create_put {s t : Store} {parts : List String} (h : s.create parts = .ok t) (bytes : List UInt8) :
    (t.put parts (.file bytes)).file? = Function.update s.file? parts (some bytes) := by
  rw [file?_put (create_eq_ok h).1, file?_create h, Function.update_idem]

theorem file?_makeDirectory {s t : Store} {parts : List String} (h : s.makeDirectory parts = .ok t) :
    t.file? = s.file? := by
  unfold makeDirectory at h
  split at h
  · cases h
  · cases h
  · next hlook =>
    cases h
    have hparts := ne_nil_of_look hlook (by simp)
    funext q
    by_cases hq : q = parts
    · subst hq
      rw [file?, file?, find?_put s q _ hparts, if_pos rfl, find?_of_look hlook]
    · exact file?_put_of_ne s _ hq

theorem file?_makeDirectories {s t : Store} {here parts : List String}
    (h : s.makeDirectories here parts = .ok t) : t.file? = s.file? := by
  induction parts generalizing s here with
  | nil =>
    cases h
    rfl
  | cons c rest ih =>
    rw [makeDirectories] at h
    dsimp only at h
    split at h
    · exact ih h
    · split at h
      · cases h
      · exact ih h
    · split at h
      · next made hmade => rw [ih h, file?_makeDirectory hmade]
      · cases h

/-! A path without a null byte is looked up without that fault. -/

theorem walk_ne_nullByte (s : Store) (here rest : List String) : s.walk here rest ≠ .error .nullByte := by
  induction rest generalizing here with
  | nil => simp [walk]
  | cons c rest ih =>
    rw [walk]
    split
    · exact ih _
    · simp
    · simp

theorem create_ne_nullByte (s : Store) {parts : List String} (h : ∀ c ∈ parts, '\x00' ∉ c.toList) :
    s.create parts ≠ .error .nullByte := by
  have hlook : s.look parts = s.walk [] parts := by
    rw [look, if_neg (by simpa using h)]
  rw [create, hlook]
  split
  · next f hf =>
    intro heq
    cases heq
    exact s.walk_ne_nullByte [] parts hf
  · simp
  · simp

theorem write_ne_nullByte (s : Store) {parts : List String} (h : ∀ c ∈ parts, '\x00' ∉ c.toList)
    (bytes : List UInt8) : s.write parts bytes ≠ .error .nullByte := by
  have hcreate := s.create_ne_nullByte h
  rw [write]
  cases hopened : s.create parts with
  | error f =>
    intro heq
    cases heq
    exact hcreate hopened
  | ok t => nofun

theorem notMem_of_read {s : Store} {parts : List String} {bytes : List UInt8} (h : s.read parts = .ok bytes) :
    ∀ c ∈ parts, '\x00' ∉ c.toList := by
  intro c hc hnull
  have hlook : s.look parts = .error .nullByte := by
    rw [look, if_pos (List.any_eq_true.2 ⟨c, hc, by simpa using hnull⟩)]
  rw [read, hlook] at h
  cases h

end Store

/-! Components of paths. -/

namespace Text

theorem splitAt_of_notMem {sep : Char} {cs : List Char} (h : sep ∉ cs) : splitAt sep cs = [cs] := by
  induction cs with
  | nil => rfl
  | cons c cs ih =>
    rw [List.mem_cons, not_or] at h
    rw [splitAt, if_neg (by simpa using Ne.symm h.1), ih h.2, consLine]

/-- What is written at the end of a text, without a separator, goes to its last part. -/
theorem splitAt_append (sep : Char) (cs : List Char) : ∃ front last, ∀ ending, sep ∉ ending →
    splitAt sep (cs ++ ending) = front ++ [last ++ ending] := by
  induction cs with
  | nil => exact ⟨[], [], fun ending h => splitAt_of_notMem h⟩
  | cons c cs ih =>
    obtain ⟨front, last, hsplit⟩ := ih
    by_cases hc : c = sep
    · refine ⟨[] :: front, last, fun ending h => ?_⟩
      rw [List.cons_append, splitAt, if_pos (by simpa using hc), hsplit ending h, List.cons_append]
    · cases front with
      | nil =>
        refine ⟨[], c :: last, fun ending h => ?_⟩
        rw [List.cons_append, splitAt, if_neg (by simpa using hc), hsplit ending h, List.nil_append, consLine]
        rfl
      | cons l front =>
        refine ⟨(c :: l) :: front, last, fun ending h => ?_⟩
        rw [List.cons_append, splitAt, if_neg (by simpa using hc), hsplit ending h, List.cons_append, consLine]
        rfl

theorem mem_of_mem_splitAt {sep x : Char} {cs l : List Char} (hl : l ∈ splitAt sep cs) (hx : x ∈ l) : x ∈ cs := by
  induction cs generalizing l with
  | nil =>
    rw [splitAt, List.mem_singleton] at hl
    rw [hl] at hx
    exact hx
  | cons c cs ih =>
    rw [splitAt] at hl
    split at hl
    · obtain rfl | hl := List.mem_cons.1 hl
      · cases hx
      · exact List.mem_cons_of_mem c (ih hl hx)
    · cases hsplit : splitAt sep cs with
      | nil =>
        rw [hsplit, consLine, List.mem_singleton] at hl
        rw [hl, List.mem_singleton] at hx
        rw [hx]
        exact List.mem_cons_self
      | cons first rest =>
        rw [hsplit] at ih hl
        obtain rfl | hl := List.mem_cons.1 hl
        · obtain rfl | hx := List.mem_cons.1 hx
          · exact List.mem_cons_self
          · exact List.mem_cons_of_mem c (ih List.mem_cons_self hx)
        · exact List.mem_cons_of_mem c (ih (List.mem_cons_of_mem first hl) hx)

end Text

namespace Path

theorem parts_resolve (cwd : Path) (text : String) : (cwd.resolve text).parts =
    ((Text.splitAt '/' text.toList).map String.ofList).foldl enter
      (if text.toList.head? = some '/' then [] else cwd.parts) := by
  unfold resolve
  dsimp only
  split
  · next h => rw [h, List.head?_cons, if_pos rfl]
  · next h => rw [h, List.head?_cons, if_pos rfl]
  · next h => rw [h, List.head?_cons, if_pos rfl]
  · next h =>
    rw [if_neg]
    intro hhead
    obtain ⟨rest, hrest⟩ := List.head?_eq_some_iff.1 hhead
    exact h rest hrest

/-- A text is its stem with an extension, if it has one: that starts at its only dot and lies in the last
component, which it does not take up as a whole. -/
theorem stem_append (text : String) : ∃ extension, text.toList = (stem text).toList ++ extension ∧
    (extension = [] ∨ (stem text).toList ≠ [] ∧
      ∃ letters, extension = '.' :: letters ∧ '.' ∉ letters ∧ '/' ∉ letters) := by
  unfold stem
  dsimp only
  split
  · exact ⟨[], by rw [List.append_nil], .inl rfl⟩
  · next hdots =>
    generalize hname : text.toList.reverse.takeWhile (· != '/') = name at hdots ⊢
    generalize hletters : name.takeWhile (· != '.') = letters at hdots ⊢
    have hback := List.takeWhile_append_dropWhile (p := (· != '/')) (l := text.toList.reverse)
    have hsplit := List.takeWhile_append_dropWhile (p := (· != '.')) (l := name)
    rw [hname] at hback
    rw [hletters] at hsplit
    generalize text.toList.reverse.dropWhile (· != '/') = folders at hback
    cases hrest : name.dropWhile (· != '.') with
    | nil =>
      -- Without a dot in the name nothing is left behind its letters.
      rw [hrest, List.append_nil] at hsplit
      rw [hsplit, List.drop_of_length_le (by omega)] at hdots
      exact absurd rfl hdots
    | cons dot more =>
      have hdot : dot = '.' := by
        have hhead := List.head?_dropWhile_not (· != '.') name
        simpa [hrest] using hhead
      subst hdot
      rw [hrest] at hsplit
      have htext : text.toList.reverse = letters ++ '.' :: (more ++ folders) := by
        rw [← hback, ← hsplit, List.append_assoc, List.cons_append]
      have hdrop : text.toList.reverse.drop (letters.length + 1) = more ++ folders := by
        rw [htext, List.drop_append, List.drop_of_length_le (by omega)]
        simp
      have hmore : more ≠ [] := by
        rintro rfl
        simp [← hsplit] at hdots
      rw [hdrop, String.toList_ofList]
      refine ⟨'.' :: letters.reverse, ?_, .inr ⟨by simp [hmore], letters.reverse, rfl, ?_, ?_⟩⟩
      · rw [← List.reverse_reverse text.toList, htext]
        simp
      · intro hmem
        rw [List.mem_reverse, ← hletters] at hmem
        simpa using List.mem_takeWhile_imp hmem
      · intro hmem
        rw [List.mem_reverse] at hmem
        have hmem : '/' ∈ name := by
          rw [← hsplit]
          exact List.mem_append_left _ hmem
        rw [← hname] at hmem
        simpa using List.mem_takeWhile_imp hmem

theorem enter_of_length (parts : List String) {c : String} (h : 2 < c.length) : enter parts c = parts ++ [c] := by
  have hne : ∀ short : String, short.length ≤ 2 → c ≠ short := by
    rintro short hshort rfl
    omega
  have hempty := hne "" (by decide)
  have hdot := hne "." (by decide)
  have hup := hne ".." (by decide)
  rw [enter, if_neg (by simp [hempty, hdot]), if_neg (by simp [hup])]

theorem eq_of_enter_eq_append {parts : List String} {c name : String} (h : enter parts c = parts ++ [name]) :
    c = name := by
  have hlength := congrArg List.length h
  rw [List.length_append, List.length_singleton] at hlength
  unfold enter at h hlength
  split at h
  · next hstay =>
    rw [if_pos hstay] at hlength
    omega
  · next hgo =>
    rw [if_neg hgo] at hlength
    split at h
    · next hup =>
      rw [if_pos hup, List.length_dropLast] at hlength
      omega
    · exact List.singleton_inj.1 (List.append_cancel_left h)

/-- A name with `.opt.R` in the place of its extension leads elsewhere. -/
theorem resolve_stem_ne (cwd : Path) {text : String} (h : text ≠ "") :
    (cwd.resolve (stem text ++ ".opt.R")).parts ≠ (cwd.resolve text).parts := by
  obtain ⟨extension, htext, hextension⟩ := stem_append text
  obtain ⟨front, last, hsplit⟩ := Text.splitAt_append '/' (stem text).toList
  have hstem : (stem text).toList ≠ [] := by
    obtain rfl | ⟨hstem, -⟩ := hextension
    · rw [List.append_nil] at htext
      rw [← htext]
      simpa using h
    · exact hstem
  have hslash : '/' ∉ extension := by
    obtain rfl | ⟨-, letters, rfl, -, hletters⟩ := hextension
    · exact List.not_mem_nil
    · simpa using hletters
  have hparts : ∀ ending, '/' ∉ ending → ∀ name : String, name.toList = (stem text).toList ++ ending →
      (cwd.resolve name).parts = enter ((front.map String.ofList).foldl enter
        (if (stem text).toList.head? = some '/' then [] else cwd.parts)) (String.ofList (last ++ ending)) := by
    intro ending hending name hname
    have hhead : ((stem text).toList ++ ending).head? = (stem text).toList.head? := by
      rw [List.head?_append, List.head?_eq_some_head hstem, Option.some_or]
    rw [parts_resolve, hname, hsplit ending hending, hhead, List.map_append, List.foldl_append]
    rfl
  rw [hparts _ hslash text htext, hparts ".opt.R".toList (by decide) _ (String.toList_append)]
  generalize (front.map String.ofList).foldl enter _ = folder
  intro heq
  have hnew : enter folder (String.ofList (last ++ ".opt.R".toList)) =
      folder ++ [String.ofList (last ++ ".opt.R".toList)] := by
    apply enter_of_length
    rw [String.length_ofList, List.length_append]
    exact Nat.lt_add_left last.length (by decide)
  rw [hnew] at heq
  have hnames := congrArg String.toList (eq_of_enter_eq_append heq.symm)
  rw [String.toList_ofList, String.toList_ofList] at hnames
  have hending := List.append_cancel_left hnames
  obtain rfl | ⟨-, letters, rfl, hletters, -⟩ := hextension
  · cases hending
  · apply hletters
    rw [(List.cons.inj hending).2]
    decide

/-! Paths that can be looked up. -/

/-- A path without a null byte. -/
def NullFree (p : Path) : Prop := ∀ c ∈ p.parts, '\x00' ∉ c.toList

instance (p : Path) : Decidable p.NullFree := inferInstanceAs (Decidable (∀ c ∈ p.parts, '\x00' ∉ c.toList))

theorem mem_foldl_enter {parts cs : List String} {c : String} (h : c ∈ cs.foldl enter parts) : c ∈ parts ∨ c ∈ cs := by
  induction cs generalizing parts with
  | nil => exact .inl h
  | cons first cs ih =>
    obtain h | h := ih h
    · unfold enter at h
      split at h
      · exact .inl h
      · split at h
        · exact .inl (List.dropLast_subset parts h)
        · obtain h | h := List.mem_append.1 h
          · exact .inl h
          · exact .inr (List.mem_cons.2 (.inl (List.mem_singleton.1 h)))
    · exact .inr (List.mem_cons_of_mem first h)

theorem NullFree.resolve {cwd : Path} (hcwd : cwd.NullFree) {text : String} (htext : '\x00' ∉ text.toList) :
    (cwd.resolve text).NullFree := by
  intro c hc hnull
  rw [parts_resolve] at hc
  obtain hc | hc := mem_foldl_enter hc
  · split at hc
    · cases hc
    · exact hcwd c hc hnull
  · obtain ⟨l, hl, rfl⟩ := List.mem_map.1 hc
    rw [String.toList_ofList] at hnull
    exact htext (Text.mem_of_mem_splitAt hl hnull)

theorem notMem_intercalate {parts : List String} (h : ∀ c ∈ parts, '\x00' ∉ c.toList) :
    '\x00' ∉ (String.intercalate "/" parts).toList := by
  induction parts with
  | nil => exact List.not_mem_nil
  | cons c parts ih =>
    obtain ⟨hc, hparts⟩ := List.forall_mem_cons.1 h
    cases parts with
    | nil =>
      rw [String.intercalate_singleton]
      exact hc
    | cons d parts =>
      rw [String.intercalate_cons_cons, String.toList_append, String.toList_append, List.mem_append,
        List.mem_append, not_or, not_or]
      exact ⟨⟨hc, by decide⟩, ih hparts⟩

theorem NullFree.text {p : Path} (h : p.NullFree) : '\x00' ∉ p.text.toList := by
  rw [Path.text, String.toList_append, List.mem_append, not_or]
  refine ⟨?_, notMem_intercalate h⟩
  split <;> decide

theorem notMem_stem {text : String} (h : '\x00' ∉ text.toList) : '\x00' ∉ (stem text).toList := by
  obtain ⟨extension, htext, -⟩ := stem_append text
  rw [htext, List.mem_append, not_or] at h
  exact h.1

end Path
end Deadwood
