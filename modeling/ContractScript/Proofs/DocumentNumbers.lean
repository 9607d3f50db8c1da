import ContractScript.Contract.Assembly
import Mathlib.Data.List.Basic
import Mathlib.Data.List.Induction

/-!
# Numbers of documents

The documents of debug information are the files of all its places, in the order in which the places
mention them first: method by method, and in each method by address.
-/

namespace ContractScript

open List

/-- One more mention adds its file at the end, unless it was mentioned before. -/
theorem eraseDups_concat (mentions : List Nat) (file : Nat) :
    (mentions ++ [file]).eraseDups =
      if file ∈ mentions then mentions.eraseDups else mentions.eraseDups ++ [file] := by
  rw [eraseDups_append]
  by_cases h : file ∈ mentions
  · simp [List.removeAll, h]
  · simp [List.removeAll, h, eraseDups_cons]

/-- Each number of `eraseDups` is given for a mention, before which only files with smaller numbers
are mentioned. -/
theorem exists_first_mention {n : Nat} (mentions : List Nat) (hn : n < mentions.eraseDups.length) :
    ∃ before file after, mentions = before ++ file :: after ∧ mentions.eraseDups.idxOf file = n ∧
      ∀ earlier ∈ before, mentions.eraseDups.idxOf earlier < n := by
  induction mentions using List.reverseRecOn with
  | nil => exact absurd hn (Nat.not_lt_zero n)
  | append_singleton mentions last ih =>
    rw [eraseDups_concat] at hn ⊢
    split
    · next hlast =>
      rw [if_pos hlast] at hn
      obtain ⟨before, file, after, heq, hfile, hbefore⟩ := ih hn
      exact ⟨before, file, after ++ [last], by simp [heq], hfile, hbefore⟩
    · next hlast =>
      rw [if_neg hlast, length_append, length_singleton] at hn
      -- the files that were mentioned before keep their numbers
      have hkeeps : ∀ file ∈ mentions, (mentions.eraseDups ++ [last]).idxOf file =
          mentions.eraseDups.idxOf file := fun file hfile =>
        idxOf_append_of_mem (mem_eraseDups.mpr hfile)
      by_cases hold : n < mentions.eraseDups.length
      · obtain ⟨before, file, after, heq, hfile, hbefore⟩ := ih hold
        refine ⟨before, file, after ++ [last], by simp [heq], ?_, fun earlier hearlier => ?_⟩
        · rw [hkeeps file (by simp [heq]), hfile]
        · rw [hkeeps earlier (by simp [heq, hearlier])]
          exact hbefore earlier hearlier
      · have hnew : n = mentions.eraseDups.length := by omega
        refine ⟨mentions, last, [], rfl, ?_, fun earlier hearlier => ?_⟩
        · rw [idxOf_append_of_notMem fun h => hlast (mem_eraseDups.mp h), hnew]
          simp
        · rw [hkeeps earlier hearlier, hnew]
          exact idxOf_lt_length_of_mem (mem_eraseDups.mpr hearlier)

/-! ## The traversal -/

/-- The table after the given mentions: their files without repetitions, in order. -/
def DocumentTable.after (path : Nat → String) (mentions : List Nat) : DocumentTable :=
  ⟨mentions.eraseDups.zipIdx, mentions.eraseDups.map path⟩

/-- The number of a file in the table is its place in the list. -/
theorem lookup_zipIdx (file : Nat) : ∀ (files : List Nat) (k : Nat),
    (files.zipIdx k).lookup file = if file ∈ files then some (k + files.idxOf file) else none
  | [], _ => rfl
  | f :: files, k => by
    rw [zipIdx_cons, lookup_cons, lookup_zipIdx file files, idxOf_cons]
    by_cases h : file = f
    · simp [h]
    · have hne : (f == file) = false := beq_false_of_ne fun heq => h heq.symm
      simp [h, beq_false_of_ne h, hne, Nat.add_comm, Nat.add_left_comm]

/-- A step of the traversal mentions files. What it yields is a function of all mentions up to it,
and is not changed by later ones. -/
structure Numbers {α β : Type} (path : Nat → String) (step : α → StateM DocumentTable β)
    (mentioned : α → List Nat) (result : List Nat → α → β) : Prop where
  run : ∀ x seen, (step x).run (.after path seen) =
    (result (seen ++ mentioned x) x, .after path (seen ++ mentioned x))
  stable : ∀ x seen later, result (seen ++ mentioned x ++ later) x = result (seen ++ mentioned x) x

/-- `DocumentTable.number` finds the file among the mentions, or adds it. -/
theorem numbers_number (path : Nat → String) : Numbers path (DocumentTable.number path)
    (fun file => [file]) fun mentions file => mentions.eraseDups.idxOf file where
  run file seen := by
    show DocumentTable.number path file _ = _
    rw [DocumentTable.number, DocumentTable.after, DocumentTable.after, eraseDups_concat,
      lookup_zipIdx]
    by_cases h : file ∈ seen
    · simp [h]
    · simp [h, zipIdx_append, idxOf_append_of_notMem]
  stable file seen later := by
    rw [eraseDups_append]
    exact idxOf_append_of_mem (mem_eraseDups.mpr (by simp))

namespace Numbers

variable {α β γ : Type} {path : Nat → String} {step : α → StateM DocumentTable β}
  {mentioned : α → List Nat} {result : List Nat → α → β}

/-- A step that goes on with what another yields. -/
theorem map (h : Numbers path step mentioned result) (pick : γ → α) (make : γ → β → δ) :
    Numbers path (fun z => make z <$> step (pick z)) (fun z => mentioned (pick z))
      fun mentions z => make z (result mentions (pick z)) where
  run z seen := by
    rw [StateT.run_map, h.run]
    rfl
  stable z seen later := by rw [h.stable]

/-- `Numbers` holds of one step after another. -/
theorem mapM (h : Numbers path step mentioned result) :
    Numbers path (fun xs : List α => xs.mapM step) (fun xs => xs.flatMap mentioned)
      fun mentions xs => xs.map (result mentions) where
  run xs := by
    induction xs with
    | nil =>
      intro seen
      rw [flatMap_nil, append_nil]
      rfl
    | cons x xs ih =>
      intro seen
      rw [mapM_cons, StateT.run_bind, h.run, flatMap_cons, ← append_assoc]
      show (StateT.run (xs.mapM step >>= _) _) = _
      rw [StateT.run_bind, ih, map_cons, h.stable]
      rfl
  stable xs seen later := by
    refine map_congr_left fun x hx => ?_
    obtain ⟨before, after, rfl⟩ := append_of_mem hx
    simp only [flatMap_append, flatMap_cons, append_assoc]
    have hx := h.stable x (seen ++ before.flatMap mentioned)
    simp only [append_assoc] at hx
    rw [hx, hx]

end Numbers

/-! ## Assemblies -/

/-- The places of all methods, in the order of the methods. -/
def DebugInfo.points (d : DebugInfo) : List SequencePoint :=
  d.methods.flatMap (·.points)

namespace Assembly

/-- The files of an assembly, as its places mention them. -/
def mentions (a : Assembly) : List Nat :=
  (a.routines.zip a.script.methods).flatMap fun (_, m) => m.points.map fun (_, span) => span.file

/-- A place with the number of its document among those of all mentions. -/
def numbered (a : Assembly) (point : Nat × Span) : SequencePoint :=
  ⟨point.1, a.mentions.eraseDups.idxOf point.2.file, point.2⟩

/-- The traversal of `debugInfo` lists every file once, and numbers it by its place in the list. -/
theorem debugInfo_eq (a : Assembly) :
    a.debugInfo.documents = a.mentions.eraseDups.map a.documentPath ∧
      a.debugInfo.methods = (a.routines.zip a.script.methods).map fun (r, m) =>
        a.debugMethod r m (m.points.map a.numbered) := by
  have hpoints := ((numbers_number a.documentPath).map (fun point : Nat × Span => point.2.file)
    fun point n => SequencePoint.mk point.1 n point.2).mapM
  have hmethods := (hpoints.map (fun rm : Routine × Method => rm.2.points)
    fun rm => a.debugMethod rm.1 rm.2).mapM.run (a.routines.zip a.script.methods) []
  simp only [nil_append, ← map_eq_flatMap] at hmethods
  exact ⟨congrArg (·.2.paths) hmethods, congrArg Prod.fst hmethods⟩

/-- The document of a place is the number of its file. -/
theorem document_of_mem_points {a : Assembly} {p : SequencePoint} (hp : p ∈ a.debugInfo.points) :
    p.document = a.mentions.eraseDups.idxOf p.span.file ∧ p.span.file ∈ a.mentions.eraseDups := by
  rw [DebugInfo.points, a.debugInfo_eq.2, flatMap_map] at hp
  obtain ⟨rm, hrm, hp⟩ := mem_flatMap.mp hp
  obtain ⟨point, hpoint, rfl⟩ := mem_map.mp hp
  exact ⟨rfl, mem_eraseDups.mpr (mem_flatMap.mpr ⟨rm, hrm, mem_map_of_mem hpoint⟩)⟩

/-- The `mentions` of an assembly are the files of its points. -/
theorem mentions_eq (a : Assembly) : a.mentions = a.debugInfo.points.map (·.span.file) := by
  rw [DebugInfo.points, a.debugInfo_eq.2, flatMap_map, map_flatMap]
  simp [mentions, debugMethod, numbered, Function.comp_def]

end Assembly

/-- Every place of `debugInfo` names the document of its file, and two places the same document
exactly if they are in the same file. Documents are numbered in the order in which the places
mention them first, method by method and in each method by address, and no other document is listed.
-/
theorem documents_number_first_mentions (a : Assembly) :
    let d := a.debugInfo
    (d.methods.map fun m => m.points.map fun p => (p.address, p.span)) =
        (a.routines.zip a.script.methods).map (·.2.points) ∧
      (∀ p ∈ d.points, p.document < d.documents.length ∧ d.documents[p.document]? = some
        ((a.program.path? p.span.file).getD ("<file " ++ Text.decimalNat p.span.file ++ ">"))) ∧
      (∀ p ∈ d.points, ∀ q ∈ d.points, p.document = q.document ↔ p.span.file = q.span.file) ∧
      (∀ n < d.documents.length, ∃ before p after, d.points = before ++ p :: after ∧
        p.document = n ∧ ∀ q ∈ before, q.document < n) ∧
      ((∀ m ∈ a.script.methods, (m.points.map Prod.fst).Pairwise (· < ·)) →
        ∀ m ∈ d.methods, (m.points.map (·.address)).Pairwise (· < ·)) := by
  have hpoints : (a.debugInfo.methods.map fun m => m.points.map fun p => (p.address, p.span)) =
      (a.routines.zip a.script.methods).map (·.2.points) := by
    rw [a.debugInfo_eq.2]
    simp [Assembly.debugMethod, Assembly.numbered, Function.comp_def]
  have hindex : ∀ p ∈ a.debugInfo.points, p.document < a.debugInfo.documents.length ∧
      a.debugInfo.documents[p.document]? = some (a.documentPath p.span.file) := by
    intro p hp
    obtain ⟨hdocument, hmem⟩ := Assembly.document_of_mem_points hp
    have hlt := idxOf_lt_length_of_mem hmem
    rw [a.debugInfo_eq.1, hdocument, length_map, getElem?_map,
      getElem?_eq_getElem hlt, getElem_idxOf hlt]
    exact ⟨hlt, rfl⟩
  refine ⟨hpoints, hindex, fun p hp q hq => ?_, fun n hn => ?_, fun hasc m hm => ?_⟩
  · obtain ⟨hpdocument, hpmem⟩ := Assembly.document_of_mem_points hp
    rw [hpdocument, (Assembly.document_of_mem_points hq).1, idxOf_inj hpmem]
  · rw [a.debugInfo_eq.1, length_map] at hn
    obtain ⟨before, file, after, heq, hfile, hbefore⟩ := exists_first_mention a.mentions hn
    rw [a.mentions_eq] at heq
    obtain ⟨earlier, rest, hsplit, rfl, hrest⟩ := map_eq_append_iff.mp heq
    obtain ⟨p, later, rfl, rfl, rfl⟩ := map_eq_cons_iff.mp hrest
    refine ⟨earlier, p, later, hsplit, ?_, fun q hq => ?_⟩
    · rw [(Assembly.document_of_mem_points (a := a) (p := p) (by simp [hsplit])).1, hfile]
    · rw [(Assembly.document_of_mem_points (a := a) (p := q) (by simp [hsplit, hq])).1]
      exact hbefore _ (mem_map_of_mem hq)
  · obtain ⟨rm, hrm, hpoints⟩ := mem_map.mp (hpoints ▸ mem_map_of_mem hm)
    have haddresses : m.points.map (·.address) = rm.2.points.map Prod.fst := by
      rw [hpoints, map_map, Function.comp_def]
    rw [haddresses]
    exact hasc rm.2 (of_mem_zip hrm).2

/-- Two methods in three files, the first of which has no path. -/
def threeFiles : Assembly :=
  { name := "Token"
    program := ⟨[⟨1, "token.ts"⟩, ⟨2, "owner.ts"⟩], []⟩
    routines :=
      [{ id := 0, name := "transfer", ops := [] }, { id := 1, name := "owner", ops := [] }]
    script := ⟨[],
      [⟨0, "transfer", 0, 8, [(0, { file := 7 }), (3, { file := 1 })]⟩,
        ⟨1, "owner", 8, 12, [(8, { file := 7 }), (9, { file := 2 })]⟩]⟩ }

theorem documents_number_first_mentions_threeFiles :
    let d := threeFiles.debugInfo
    d.documents = ["<file 7>", "token.ts", "owner.ts"] ∧ d.points.map (·.document) = [0, 1, 0, 2] ∧
      (∀ p ∈ d.points, p.document < d.documents.length) ∧
      (∀ n < d.documents.length, ∃ before p after, d.points = before ++ p :: after ∧
        p.document = n ∧ ∀ q ∈ before, q.document < n) ∧
      (∀ m ∈ threeFiles.script.methods, (m.points.map Prod.fst).Pairwise (· < ·)) ∧
      ∀ m ∈ d.methods, (m.points.map (·.address)).Pairwise (· < ·) :=
  have hasc : ∀ m ∈ threeFiles.script.methods, (m.points.map Prod.fst).Pairwise (· < ·) := by
    decide
  have ⟨_, hindex, _, hfirst, hascends⟩ := documents_number_first_mentions threeFiles
  ⟨by decide, by decide, fun p hp => (hindex p hp).1, hfirst, hasc, hascends hasc⟩

end ContractScript
