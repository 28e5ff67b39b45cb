import OpenCms.Lib.JsString

/-!
# Text that comes in pieces

A decoder turns bytes into text, chunk by chunk, and carries what a chunk leaves undone. Decoding in
chunks is decoding at once, so the pieces of text that come out of the chunks are one text, however
the bytes are cut (`OpenCms.TextDecoder.flatten_pieces`).

What reads lines of such a text keeps the last one, which may go on in the next piece. The lines that
are complete, and the one that is not, are told from the whole text and piece by piece
(`OpenCms.JsString.lines_append_eq`).
-/

namespace OpenCms

/-! ### Decoding -/

structure TextDecoder where
  State : Type
  init : State
  decode : State → List UInt8 → JsString × State
  decode_append : ∀ state bytes bytes', decode state (bytes ++ bytes') =
    ((decode state bytes).1 ++ (decode (decode state bytes).2 bytes').1,
      (decode (decode state bytes).2 bytes').2)

namespace TextDecoder

variable (decoder : TextDecoder)

def piecesFrom (state : decoder.State) : List (List UInt8) → List JsString
  | [] => []
  | chunk :: chunks =>
    (decoder.decode state chunk).1 :: piecesFrom (decoder.decode state chunk).2 chunks

def pieces (chunks : List (List UInt8)) : List JsString := decoder.piecesFrom decoder.init chunks

theorem flatten_piecesFrom (state : decoder.State) {chunks : List (List UInt8)} (h : chunks ≠ []) :
    (decoder.piecesFrom state chunks).flatten = (decoder.decode state chunks.flatten).1 := by
  induction chunks generalizing state with
  | nil => exact absurd rfl h
  | cons chunk chunks ih =>
    rw [piecesFrom, List.flatten_cons, List.flatten_cons]
    rcases eq_or_ne chunks [] with rfl | hne
    · rw [piecesFrom, List.flatten_nil, List.flatten_nil, List.append_nil, List.append_nil]
    · rw [ih _ hne, decoder.decode_append]

/-- **However bytes are cut, the pieces are one text.** -/
theorem flatten_pieces {chunks chunks' : List (List UInt8)} (hchunks : ∀ chunk ∈ chunks, chunk ≠ [])
    (hchunks' : ∀ chunk ∈ chunks', chunk ≠ []) (h : chunks.flatten = chunks'.flatten) :
    (decoder.pieces chunks).flatten = (decoder.pieces chunks').flatten := by
  have hnil : ∀ {cs : List (List UInt8)}, (∀ chunk ∈ cs, chunk ≠ []) → cs.flatten = [] → cs = [] := by
    intro cs hcs hflatten
    rcases cs with _ | ⟨chunk, cs⟩
    · rfl
    · exact absurd (List.append_eq_nil_iff.mp hflatten).1 (hcs chunk List.mem_cons_self)
  rcases eq_or_ne chunks [] with rfl | hne
  · rw [hnil hchunks' h.symm]
  · have hne' : chunks' ≠ [] := by
      rintro rfl
      exact hne (hnil hchunks h)
    rw [pieces, pieces, flatten_piecesFrom _ _ hne, flatten_piecesFrom _ _ hne', h]

end TextDecoder

/-! ### Lines -/

namespace JsString

variable {s t : JsString}

theorem lines_ne_nil (s : JsString) : lines s ≠ [] := List.splitOn_ne_nil newline s

def completeLines (s : JsString) : List JsString := (lines s).dropLast

def lastLine (s : JsString) : JsString := (lines s).getLast (lines_ne_nil s)

theorem lines_eq (s : JsString) : lines s = completeLines s ++ [lastLine s] :=
  (List.dropLast_concat_getLast (lines_ne_nil s)).symm

theorem newline_notMem_lastLine (s : JsString) : newline ∉ lastLine s :=
  notMem_of_mem_splitOn (List.getLast_mem (lines_ne_nil s))

theorem completeLines_of_notMem (h : newline ∉ s) : completeLines s = [] ∧ lastLine s = s := by
  have heq : completeLines s ++ [lastLine s] = [] ++ [s] := (lines_eq s).symm.trans (lines_of_notMem h)
  obtain ⟨hcomplete, hlast⟩ := List.append_inj' heq rfl
  exact ⟨hcomplete, List.singleton_inj.mp hlast⟩

theorem lines_append_eq (s t : JsString) :
    lines (s ++ t) = completeLines s ++ lines (lastLine s ++ t) := by
  obtain ⟨before, last, first, rest, hs, ht, hst⟩ := @splitOn_append _ _ newline s t
  obtain ⟨before', last', first', rest', hs', ht', hst'⟩ :=
    @splitOn_append _ _ newline (lastLine s) t
  have hbefore : completeLines s = before ∧ [lastLine s] = [last] :=
    List.append_inj' ((lines_eq s).symm.trans hs) rfl
  have hlast : [] ++ [lastLine s] = before' ++ [last'] :=
    (lines_of_notMem (newline_notMem_lastLine s)).symm.trans hs'
  obtain ⟨hnil, hlast'⟩ := List.append_inj' hlast rfl
  obtain ⟨rfl, rfl⟩ := List.cons.inj (ht.symm.trans ht')
  change (s ++ t).splitOn newline = _ ++ (lastLine s ++ t).splitOn newline
  rw [hst, hst', hbefore.1, ← hnil, List.nil_append, ← List.singleton_inj.mp hlast',
    List.singleton_inj.mp hbefore.2]

theorem completeLines_append (s t : JsString) :
    completeLines (s ++ t) = completeLines s ++ completeLines (lastLine s ++ t) := by
  rw [completeLines, lines_append_eq, List.dropLast_append_of_ne_nil (lines_ne_nil _), completeLines,
    completeLines]

theorem newline_mem_of_isPrefix_drop {j : ℕ} (h : [newline] <+: s.drop j) : newline ∈ s :=
  List.mem_of_mem_drop (h.subset (List.mem_singleton_self newline))

theorem lastIndexOf_newline_of_notMem (h : newline ∉ s) : lastIndexOf [newline] s = none :=
  lastIndexOf_eq_none_iff.mpr fun _ _ hprefix => h (newline_mem_of_isPrefix_drop hprefix)

/-- **The last line end** is where the lines that are ended end. -/
theorem lastIndexOf_newline_of_mem (h : newline ∈ s) : ∃ lastNewline,
    lastIndexOf [newline] s = some lastNewline ∧
      lines (s.take (lastNewline + 1)) = completeLines s ++ [[]] ∧
      s.drop (lastNewline + 1) = lastLine s := by
  obtain ⟨after, before, heq, hafter⟩ := List.eq_append_cons_of_mem (List.mem_reverse.mpr h)
  obtain ⟨before, rfl⟩ := List.reverse_surjective before
  obtain ⟨after, rfl⟩ := List.reverse_surjective after
  rw [List.mem_reverse] at hafter
  have hs : s = before ++ newline :: after := by
    rw [← List.reverse_inj, heq, List.reverse_append, List.reverse_cons, List.append_assoc,
      List.singleton_append]
  have hlines : completeLines s = lines before ∧ [lastLine s] = [after] := by
    refine List.append_inj' ((lines_eq s).symm.trans ?_) rfl
    rw [hs, lines_append, lines_of_notMem hafter]
  have hsplit : s = (before ++ [newline]) ++ after := by
    rw [hs, List.append_assoc, List.singleton_append]
  have hlength : (before ++ [newline]).length = before.length + 1 := List.length_append
  refine ⟨before.length, lastIndexOf_eq_some_iff.mpr ⟨?_, ?_, fun j _ hj hprefix => ?_⟩, ?_, ?_⟩
  · rw [hs, List.length_append]
    exact Nat.le_add_right _ _
  · rw [hs, List.drop_left]
    exact ⟨after, rfl⟩
  · -- behind it there is none
    rw [hsplit, List.drop_append, List.drop_of_length_le (hlength.trans_le hj), List.nil_append]
      at hprefix
    exact hafter (newline_mem_of_isPrefix_drop hprefix)
  · rw [hsplit, ← hlength, List.take_left, ← hsplit, hlines.1]
    exact lines_append before []
  · rw [hsplit, ← hlength, List.drop_left, ← hsplit]
    exact (List.singleton_inj.mp hlines.2).symm

end JsString

end OpenCms
