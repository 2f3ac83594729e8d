import Mathlib.Data.List.DropRight
import PagedKernel.Machine.Serial

/-!
# The serial device and the text it was given

The serial device keeps lines, but what a drain takes out depends on the text alone: write all the
text that the device was ever given as one, and split it at its newlines. A drain takes out the
lines that were completed since the last drain, as many of the last ones as the device keeps. Where
one text ends and the next begins does not matter.

The device works on a text line by line. That is the same as putting one character after the other
(`Serial.write_eq_foldl`), and a character either goes on with the last line of the text or
completes it.

Key definitions: `completeLines`, `openLine`, `newLines`, `Serial.Holds`, `Serial.run`, `textsAt`.
Key theorems: `Serial.write_eq_foldl`, `Serial.Holds.write`, `Serial.run_eq`,
`Serial.drains_eq_newLines`.
-/

namespace PagedKernel

/-! ### The lines of a text -/

/-- The lines of a text that end with a newline. -/
def completeLines (text : String) : List String :=
  (text.toList.splitOn '\n').dropLast.map String.ofList

/-- What a text has after its last newline. -/
def openLine (text : String) : String :=
  String.ofList ((text.toList.splitOn '\n').getLast (List.splitOn_ne_nil _ _))

/-- A text with a newline is cut at its last one. -/
theorem exists_last_newline {text : List Char} (h : '\n' ∈ text) :
    ∃ before line, text = before ++ '\n' :: line ∧ '\n' ∉ line := by
  obtain ⟨line, before, hcut, hline⟩ := List.eq_append_cons_of_mem (List.mem_reverse.mpr h)
  refine ⟨before.reverse, line.reverse, ?_, by simpa using hline⟩
  rw [← text.reverse_reverse, hcut]
  simp

/-- A character that is no newline goes on with the last line. -/
theorem splitOn_concat {text : List Char} {lines : List (List Char)} {line : List Char} {c : Char}
    (h : text.splitOn '\n' = lines ++ [line]) (hc : c ≠ '\n') :
    (text ++ [c]).splitOn '\n' = lines ++ [line ++ [c]] := by
  by_cases hmem : '\n' ∈ text
  · obtain ⟨before, last, rfl, hlast⟩ := exists_last_newline hmem
    rw [List.splitOn_append_cons_self, List.splitOn_eq_singleton hlast] at h
    obtain ⟨rfl, hline⟩ := List.append_inj' h rfl
    cases hline
    have hmore : '\n' ∉ line ++ [c] := by simp [hlast, hc.symm]
    rw [List.append_assoc, List.cons_append, List.splitOn_append_cons_self,
      List.splitOn_eq_singleton hmore]
  · rw [List.splitOn_eq_singleton hmem, ← List.nil_append [text]] at h
    obtain ⟨rfl, hline⟩ := List.append_inj' h rfl
    cases hline
    have hmore : '\n' ∉ text ++ [c] := by simp [hmem, hc.symm]
    rw [List.splitOn_eq_singleton hmore, List.nil_append]

/-- The pieces of a text are its complete lines and the open one. -/
theorem splitOn_eq_concat (text : String) :
    ∃ lines line, text.toList.splitOn '\n' = lines ++ [line] ∧
      completeLines text = lines.map String.ofList ∧ openLine text = String.ofList line := by
  have hpieces := List.splitOn_ne_nil '\n' text.toList
  exact ⟨_, _, (List.dropLast_append_getLast hpieces).symm, rfl, rfl⟩

theorem lines_of_splitOn {text : String} {lines : List (List Char)} {line : List Char}
    (h : text.toList.splitOn '\n' = lines ++ [line]) :
    completeLines text = lines.map String.ofList ∧ openLine text = String.ofList line := by
  simp [completeLines, openLine, h]

theorem lines_push_newline (text : String) :
    completeLines (text.push '\n') = completeLines text ++ [openLine text] ∧
      openLine (text.push '\n') = "" := by
  obtain ⟨lines, line, hsplit, hcomplete, hopen⟩ := splitOn_eq_concat text
  have hpush : (text.push '\n').toList.splitOn '\n' = (lines ++ [line]) ++ [[]] := by
    rw [String.toList_push, List.splitOn_append_cons_self, hsplit, List.splitOn_nil]
  rw [(lines_of_splitOn hpush).1, (lines_of_splitOn hpush).2, hcomplete, hopen]
  simp

theorem lines_push_of_ne (text : String) {c : Char} (hc : c ≠ '\n') :
    completeLines (text.push c) = completeLines text ∧
      openLine (text.push c) = (openLine text).push c := by
  obtain ⟨lines, line, hsplit, hcomplete, hopen⟩ := splitOn_eq_concat text
  have hpush : (text.push c).toList.splitOn '\n' = lines ++ [line ++ [c]] := by
    rw [String.toList_push, splitOn_concat hsplit hc]
  rw [(lines_of_splitOn hpush).1, (lines_of_splitOn hpush).2, hcomplete, hopen]
  refine ⟨rfl, ?_⟩
  rw [← String.toList_inj]
  simp

/-- The lines that a text completes beyond those that the first part `before` of it completes, as
many of the last ones as the device keeps. -/
def newLines (before text : String) : List String :=
  ((completeLines text).drop (completeLines before).length).rtake serialLines

namespace Serial

/-! ### One character after the other -/

def put (s : Serial) (c : Char) : Serial :=
  if c = '\n' then s.endLine else { s with rest := s.rest.push c }

/-- A text without a newline goes on with the incomplete line. -/
theorem foldl_put_of_not_mem {text : List Char} (h : '\n' ∉ text) (s : Serial) :
    text.foldl put s = { s with rest := s.rest ++ String.ofList text } := by
  induction text generalizing s with
  | nil => simp
  | cons c text ih =>
    obtain ⟨hc, htext⟩ : '\n' ≠ c ∧ '\n' ∉ text := by simpa [not_or] using h
    rw [List.foldl_cons, ih htext, put, if_neg hc.symm]
    simp only [Serial.mk.injEq, true_and]
    rw [← String.toList_inj]
    simp

theorem writeRest_eq_foldl (s : Serial) (text : List Char) :
    s.writeRest text = text.foldl put s := by
  fun_induction writeRest s text with
  | case1 s text hnone =>
    rw [foldl_put_of_not_mem (List.idxOf?_eq_none_iff.mp hnone)]
  | case2 s text pos hpos line ih =>
    obtain ⟨hlt, hat, hbefore⟩ := List.idxOf?_eq_some_iff.mp hpos
    have hnot : '\n' ∉ text.take pos := by
      intro hmem
      obtain ⟨j, hj, hget⟩ := List.mem_take_iff_getElem.mp hmem
      exact hbefore j (by omega) hget
    have hcut : text = text.take pos ++ '\n' :: text.drop (pos + 1) := by
      rw [← hat, ← List.drop_eq_getElem_cons hlt, List.take_append_drop]
    rw [ih]
    conv_rhs => rw [hcut, List.foldl_append, foldl_put_of_not_mem hnot, List.foldl_cons, put,
      if_pos rfl]

/-- **Writing is putting one character after the other.** -/
theorem write_eq_foldl (s : Serial) (text : String) : s.write text = text.toList.foldl put s :=
  writeRest_eq_foldl s text.toList

/-! ### What the device holds -/

/-- The last `n + 1` parts of a list, without the first of them if there are so many, are the last
`n`. -/
theorem rtake_without_oldest {α : Type} (l : List α) (n : ℕ) :
    (if (l.rtake (n + 1)).length = n + 1 then (l.rtake (n + 1)).tail else l.rtake (n + 1)) =
      l.rtake n := by
  by_cases h : n < l.length
  · have hfull : l.length - (l.length - (n + 1)) = n + 1 := by omega
    rw [List.rtake, List.length_drop, if_pos hfull, List.tail_drop, List.rtake]
    congr 1
    omega
  · have hshort : ¬l.length - (l.length - (n + 1)) = n + 1 := by omega
    rw [List.rtake, List.length_drop, if_neg hshort, List.rtake]
    congr 1
    omega

theorem toList_lines_endLine (s : Serial) :
    s.endLine.lines.toList =
      (if s.lines.toList.length = serialLines then s.lines.toList.tail else s.lines.toList) ++
        [s.rest] := by
  rw [Array.length_toList]
  by_cases h : s.lines.size = serialLines <;> simp [endLine, h]

/-- The device was given `text`, and `before` of it before the last drain. -/
structure Holds (s : Serial) (before text : String) : Prop where
  completed_le : (completeLines before).length ≤ (completeLines text).length
  lines_eq : s.lines.toList = newLines before text
  rest_eq : s.rest = openLine text

namespace Holds

variable {s : Serial} {before text : String}

theorem endLine (h : s.Holds before text) : s.endLine.Holds before (text.push '\n') := by
  obtain ⟨hcomplete, hopen⟩ := lines_push_newline text
  refine ⟨?_, ?_, hopen.symm⟩
  · rw [hcomplete, List.length_append]
    exact Nat.le_add_right_of_le h.completed_le
  · rw [toList_lines_endLine, h.lines_eq, h.rest_eq, newLines, newLines, hcomplete,
      List.drop_append_of_le_length h.completed_le]
    show _ = List.rtake _ (1023 + 1)
    rw [List.rtake_concat_succ, ← rtake_without_oldest _ 1023]
    rfl

theorem put (h : s.Holds before text) (c : Char) : (s.put c).Holds before (text.push c) := by
  by_cases hc : c = '\n'
  · subst hc
    rw [Serial.put, if_pos rfl]
    exact h.endLine
  · obtain ⟨hcomplete, hopen⟩ := lines_push_of_ne text hc
    rw [Serial.put, if_neg hc]
    refine ⟨?_, ?_, ?_⟩
    · rw [hcomplete]
      exact h.completed_le
    · rw [newLines, hcomplete]
      exact h.lines_eq
    · rw [hopen, ← h.rest_eq]

theorem write (h : s.Holds before text) (more : String) :
    (s.write more).Holds before (text ++ more) := by
  suffices hput : ∀ (cs : List Char) {s : Serial} {text : String}, s.Holds before text →
      (cs.foldl Serial.put s).Holds before (text ++ String.ofList cs) by
    rw [write_eq_foldl]
    simpa using hput more.toList h
  intro cs
  induction cs with
  | nil => simp
  | cons c cs ih =>
    intro s text h
    have hcut : text ++ String.ofList (c :: cs) = text.push c ++ String.ofList cs := by
      rw [← String.toList_inj]
      simp
    rw [hcut]
    exact ih (h.put c)

theorem drain (h : s.Holds before text) :
    s.drain.1 = newLines before text ∧ s.drain.2.Holds text text := by
  refine ⟨h.lines_eq, le_rfl, ?_, h.rest_eq⟩
  simp [Serial.drain, newLines, List.rtake]

end Holds

theorem holds_empty : Holds {} "" "" := by
  refine ⟨le_rfl, ?_, ?_⟩ <;> decide

/-! ### Sequences of calls -/

/-- What the device is asked to do. -/
inductive Call
  | write (text : String)
  | drain

/-- What the drains of a sequence of calls take out, and the device afterwards. -/
def run (s : Serial) : List Call → List (List String) × Serial
  | [] => ([], s)
  | .write text :: calls => (s.write text).run calls
  | .drain :: calls =>
    let (lines, s) := s.drain
    let (drains, s) := s.run calls
    (lines :: drains, s)

/-- All the text that the device is given, after `text`. -/
def written (text : String) : List Call → String
  | [] => text
  | .write more :: calls => written (text ++ more) calls
  | .drain :: calls => written text calls

/-- For each drain, all the text that the device is given before it, after `text`. -/
def textsAt (text : String) : List Call → List String
  | [] => []
  | .write more :: calls => textsAt (text ++ more) calls
  | .drain :: calls => text :: textsAt text calls

theorem run_eq {s : Serial} {before text : String} (h : s.Holds before text) (calls : List Call) :
    (s.run calls).1 = List.zipWith newLines (before :: textsAt text calls) (textsAt text calls) ∧
      (s.run calls).2.rest = openLine (written text calls) := by
  induction calls generalizing s before text with
  | nil => exact ⟨rfl, h.rest_eq⟩
  | cons call calls ih =>
    cases call with
    | write more => exact ih (h.write more)
    | drain =>
      obtain ⟨hlines, hdrained⟩ := h.drain
      obtain ⟨hdrains, hrest⟩ := ih hdrained
      refine ⟨?_, hrest⟩
      rw [run, textsAt, List.zipWith_cons_cons, ← hlines, ← hdrains]

/-- **The lines that are taken out depend on the text alone.** Each drain takes out the lines that
the text completes and had not completed at the drain before, as many of the last ones as the device
keeps. What the text has after its last newline stays, to be completed by later text. So it makes no
difference how the text is cut into the texts that are written. -/
theorem drains_eq_newLines (calls : List Call) :
    (run {} calls).1 = List.zipWith newLines ("" :: textsAt "" calls) (textsAt "" calls) ∧
      (run {} calls).2.rest = openLine (written "" calls) ∧
      ∀ calls', textsAt "" calls' = textsAt "" calls → (run {} calls').1 = (run {} calls).1 := by
  obtain ⟨hdrains, hrest⟩ := run_eq holds_empty calls
  refine ⟨hdrains, hrest, fun calls' htexts => ?_⟩
  rw [(run_eq holds_empty calls').1, hdrains, htexts]

/-- A line that is incomplete at the first drain is taken out by the second, and it does not matter
that its newline is written apart. -/
theorem drains_eq_newLines_apart :
    (run {} [.write "a\nb", .drain, .write "c\n", .drain]).1 = [["a"], ["bc"]] ∧
      (run {} [.write "a", .write "\n", .write "b", .drain, .write "", .write "c", .write "\n",
        .drain]).1 = [["a"], ["bc"]] := by
  have hdrains := (drains_eq_newLines [.write "a\nb", .drain, .write "c\n", .drain]).1
  have hsame := (drains_eq_newLines [.write "a\nb", .drain, .write "c\n", .drain]).2.2
    [.write "a", .write "\n", .write "b", .drain, .write "", .write "c", .write "\n", .drain]
    (by decide)
  rw [hsame, hdrains]
  decide

end Serial

end PagedKernel
