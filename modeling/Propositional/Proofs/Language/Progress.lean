import Propositional.Proofs.Language.Cuts
import Propositional.Proofs.Language.LexicalErrors

/-!
# How far a scanner gets

On its way through a text a scanner passes only ASCII characters (`Cursor.Passes.within`), so its
offset is a place where the text can be cut. A call never goes back, and a token takes it on by at
least one byte; so a text has no more tokens than bytes (`Scanner.sound_after_calls`).
-/

namespace Propositional

namespace Cursor

variable {text : String} {c c' : Cursor} {t : Token} {ts : List Token}

/-- The cursor is between two characters of the text. In front of it there are only ASCII characters, as many as its
offset says. -/
structure Within (text : String) (c : Cursor) : Prop where
  le_size : c.offset ≤ text.utf8ByteSize
  boundary : (⟨c.offset⟩ : String.Pos.Raw).IsValid text
  ascii : ∀ b ∈ (bytes text).take c.offset, b < 128
  count : ∃ front : String, text = front ++ .ofList c.rest ∧ front.length = c.offset

theorem Passes.exists_split (h : Passes (start text) ts c) : ∃ front : List Char,
    text = .ofList front ++ .ofList c.rest ∧ front.length = c.offset ∧ ∀ x ∈ front, x.utf8Size = 1 := by
  obtain ⟨offset, rest⟩ := c
  obtain ⟨front, htext, rfl, hbytes, _⟩ := h.exists_front
  refine ⟨front, ?_, (Nat.zero_add _).symm, utf8Size_of_utf8Len hbytes⟩
  rw [← String.ofList_append, ← htext, String.ofList_toList]

theorem Passes.after?_eq (h : Passes (start text) ts c) : Cut.after? text c.offset = some (.ofList c.rest) := by
  obtain ⟨front, htext, hlength, hsize⟩ := h.exists_split
  rw [htext, ← hlength, ← utf8Len_of_utf8Size hsize, ← String.utf8ByteSize_ofList]
  exact Cut.after?_append _ _

theorem Passes.within (h : Passes (start text) ts c) : c.Within text := by
  obtain ⟨front, htext, hlength, hsize⟩ := h.exists_split
  have hbytes : (String.ofList front).utf8ByteSize = c.offset := by
    rw [String.utf8ByteSize_ofList, utf8Len_of_utf8Size hsize, hlength]
  refine ⟨?_, ?_, ?_, .ofList front, htext, by rw [String.length_ofList, hlength]⟩
  · rw [htext, String.utf8ByteSize_append, hbytes]
    exact Nat.le_add_right _ _
  · rw [htext, ← hbytes]
    exact Cut.isValid_append _ _
  · intro b hb
    rw [htext, bytes_append, List.take_left' (by rw [length_bytes, hbytes]), bytes_of_utf8Size hsize] at hb
    obtain ⟨x, hx, rfl⟩ := List.mem_map.mp hb
    obtain ⟨heq, hlt⟩ := toNat_toUInt8 (hsize x hx)
    exact UInt8.lt_iff_toNat_lt.mpr (heq.trans_lt hlt)

theorem next_token (h : c.next = (.token t, c')) : 0 < t.text.utf8ByteSize ∧
    c.offset + t.text.utf8ByteSize ≤ c'.offset ∧ c'.offset = t.span.stop := by
  obtain ⟨offset, cs⟩ := c
  obtain ⟨n, k, rest, rfl, hk, _, rfl, rfl⟩ := exists_of_next h
  have hsize : k.text.utf8ByteSize = k.text.length := Kind.utf8ByteSize_text hk
  refine ⟨?_, ?_, ?_⟩
  · exact hsize ▸ hk.length_pos
  · simp only [Token.text, Token.startingAt, hsize]
    omega
  · simp only [Token.startingAt, hsize]

theorem exists_passes_of_scan {failure : Option LexicalError} (h : c.scan = ⟨ts, failure⟩) :
    ∃ c', Passes c ts c' := by
  cases failure with
  | none => exact ⟨_, passes_of_spells (spells_of_scan h)⟩
  | some e =>
      obtain ⟨_, _, _, hpasses, _⟩ := scan_eq_failure_iff.mp h
      exact ⟨_, hpasses⟩

end Cursor

namespace Scanner

variable {text : String} {s : Scanner} {ts : List Token}

/-- The scanner after the calls. -/
def after (s : Scanner) (calls : List Call) : Scanner := calls.foldl (fun s c => (s.call c).2) s

/-- What holds of a scanner in a text. The next token is found without a cut that is refused; no call moves the cursor
back, and a call that finds a token moves it to the end of that token, which is in the text. -/
structure Sound (text : String) (s : Scanner) : Prop where
  within : s.cursor.Within text
  cuts : Cut.next? text s.cursor.offset = some (s.cursor.next.1, s.cursor.next.2.offset)
  forward : ∀ call, s.cursor.offset ≤ (s.call call).2.cursor.offset
  token : ∀ call t, (s.call call).1 = .token t → 0 < t.text.utf8ByteSize ∧
    s.cursor.offset + t.text.utf8ByteSize ≤ (s.call call).2.cursor.offset ∧
    (s.call call).2.cursor.offset = t.span.stop ∧ t.span.stop ≤ text.utf8ByteSize

/-- A call takes the next token from the cursor, or the iteration is over and nothing is touched. -/
theorem call_cases (s : Scanner) (call : Call) : s.call call = (.finished, s) ∨
    s.cursor.next = ((s.call call).1, (s.call call).2.cursor) := by
  cases call with
  | poll => exact .inr rfl
  | next =>
      cases hstopped : s.stopped with
      | true => exact .inl (if_pos hstopped)
      | false =>
          obtain ⟨found, c, hnext⟩ : ∃ found c, s.cursor.next = (found, c) := ⟨_, _, rfl⟩
          right
          rw [Scanner.call, Scanner.next, if_neg (by simp [hstopped]), poll, hnext]
          cases found <;> rfl

theorem exists_passes_call (s : Scanner) (call : Call) : ∃ ts, s.cursor.Passes ts (s.call call).2.cursor := by
  rcases s.call_cases call with h | h
  · rw [h]
    exact ⟨[], .refl _⟩
  · obtain ⟨ts, hpasses⟩ := s.cursor.exists_passes_next
    rw [h] at hpasses
    exact ⟨ts, hpasses⟩

theorem exists_passes_after (s : Scanner) (calls : List Call) : ∃ ts, s.cursor.Passes ts (s.after calls).cursor := by
  induction calls generalizing s with
  | nil => exact ⟨[], .refl _⟩
  | cons call calls ih =>
      obtain ⟨ts, hcall⟩ := s.exists_passes_call call
      obtain ⟨ts', hrest⟩ := ih (s.call call).2
      exact ⟨ts ++ ts', hcall.trans hrest⟩

theorem sound_of_passes (h : (Cursor.start text).Passes ts s.cursor) : s.Sound text where
  within := h.within
  cuts := Cut.next?_eq h.after?_eq
  forward call := by
    obtain ⟨_, hcall⟩ := s.exists_passes_call call
    exact Nat.le_trans (Nat.le_add_right _ _) hcall.offset_add_length_le
  token call t ht := by
    rcases s.call_cases call with hover | hnext
    · rw [hover] at ht
      cases ht
    · rw [ht] at hnext
      obtain ⟨hpos, hle, hstop⟩ := Cursor.next_token hnext
      refine ⟨hpos, hle, hstop, ?_⟩
      rw [← hstop]
      exact (h.trans (Cursor.passes_of_next hnext)).within.le_size

theorem length_tokens_le (text : String) : (Cursor.start text).scan.tokens.length ≤ text.utf8ByteSize := by
  obtain ⟨c, hpasses⟩ := Cursor.exists_passes_of_scan (c := Cursor.start text) rfl
  have hlength : 0 + (Cursor.start text).scan.tokens.length ≤ c.offset := hpasses.offset_add_length_le
  rw [Nat.zero_add] at hlength
  exact Nat.le_trans hlength hpasses.within.le_size

/-- A scanner of the text is sound whatever calls have been made on it, and a text that is split has no more tokens
than bytes. Asked for one token after the other the scanner comes to an end. It meets the tokens and the outcome that
the split of the whole text answers, and these are no more tokens than bytes either when the outcome is an error. -/
theorem sound_after_calls (text : String) : (∀ calls, ((start text).after calls).Sound text) ∧
    (∀ ts, (Token.scan text).result = .ok ts → ts.length ≤ text.utf8ByteSize) ∧
    ∃ whole : Scan, (whole.failure = none → (Token.scan text).result = .ok whole.tokens) ∧
      (∀ e, whole.failure = some e → (Token.scan text).result = .error e) ∧
      (start text).Yields (whole.tokens.map .token ++ whole.failure.toList.map .failed) ∧
      whole.tokens.length ≤ text.utf8ByteSize := by
  refine ⟨fun calls => ?_, fun ts hts => ?_, (Cursor.start text).scan, Token.result_scan_of_finished,
    fun _ => Token.result_scan_of_failed, yields_of_scan rfl, length_tokens_le text⟩
  · obtain ⟨ts, hpasses⟩ := (start text).exists_passes_after calls
    exact sound_of_passes hpasses
  · have hlength := length_tokens_le text
    rw [Token.result_scan, Scan.result_eq_ok_iff] at hts
    rwa [hts] at hlength

end Scanner

end Propositional
