import P16.Proofs.Lexemes

/-!
# Tokens tile their text

The tokens of a text stand one after another on pieces of it, and what lies between them is blanks,
comments and escaped line breaks.
-/

namespace P16

namespace Span

/-- The spans follow one another between the bytes `low` and `high`. -/
inductive Row : Nat → Nat → List Span → Prop where
  | nil {low high : Nat} (h : low ≤ high) : Row low high []
  | cons {low high : Nat} {a : Span} {rest : List Span} (hlow : low ≤ a.start)
      (ha : a.start ≤ a.stop) (hrest : Row a.stop high rest) : Row low high (a :: rest)

namespace Row

variable {low mid high : Nat} {a : Span} {spans more : List Span}

theorem le (h : Row low high spans) : low ≤ high := by
  induction h with
  | nil h => exact h
  | cons hlow ha _ ih => exact hlow.trans (ha.trans ih)

theorem widen {low' high' : Nat} (h : Row low high spans) (hlow : low' ≤ low)
    (hhigh : high ≤ high') : Row low' high' spans := by
  induction h generalizing low' with
  | nil h => exact .nil (hlow.trans (h.trans hhigh))
  | cons hstart ha _ ih => exact .cons (hlow.trans hstart) ha (ih le_rfl hhigh)

theorem append (h : Row low mid spans) (hmore : Row mid high more) :
    Row low high (spans ++ more) := by
  induction h with
  | nil h => exact hmore.widen h le_rfl
  | cons hlow ha _ ih => exact .cons hlow ha (ih hmore)

theorem bounds (h : Row low high spans) (ha : a ∈ spans) :
    low ≤ a.start ∧ a.start ≤ a.stop ∧ a.stop ≤ high := by
  induction h with
  | nil => cases ha
  | cons hlow hfirst hrest ih =>
      rcases List.mem_cons.mp ha with rfl | ha
      · exact ⟨hlow, hfirst, hrest.le⟩
      · obtain ⟨hstart, hstop⟩ := ih ha
        exact ⟨hlow.trans (hfirst.trans hstart), hstop⟩

theorem pairwise (h : Row low high spans) : spans.Pairwise fun a b => a.stop ≤ b.start := by
  induction h with
  | nil => exact .nil
  | cons _ _ hrest ih => exact .cons (fun b hb => (hrest.bounds hb).1) ih

end Row

/-- The line and column of the span are those of its first byte. -/
def Placed (index : LineIndex) (a : Span) : Prop :=
  (a.line, a.column) = index.lineColumn a.start

end Span

/-- The text stands in the source, from the byte `start` to the byte `stop`. -/
def StandsAt (source text : String) (start stop : Nat) : Prop :=
  ∃ before after : String, source = before ++ text ++ after ∧ start = before.utf8ByteSize ∧
    stop = start + text.utf8ByteSize

/-- From the byte `start` to the byte `stop` of the source stands one piece that is passed over. -/
def PassedAt (source : String) (start stop : Nat) : Prop :=
  ∃ before piece after, source.toList = before ++ (piece ++ after) ∧ Scan.Passed piece after ∧
    start = width before ∧ stop = start + width piece

/-- The tokens stand on pieces of the source in its order, and the rest of it is passed over. -/
structure Tiles (source : String) (tokens : List Token) : Prop where
  nonempty : ∀ t ∈ tokens, t.span.start < t.span.stop
  ordered : tokens.Pairwise fun t u => t.span.stop ≤ u.span.start
  slice : ∀ t ∈ tokens, StandsAt source t.text t.span.start t.span.stop
  placed : ∀ t ∈ tokens, t.span.Placed (.ofString source)
  covered : ∀ byte < source.utf8ByteSize,
    (∃ t ∈ tokens, t.span.start ≤ byte ∧ byte < t.span.stop) ∨
      ∃ start stop, PassedAt source start stop ∧ start ≤ byte ∧ byte < stop ∧
        ∀ t ∈ tokens, t.span.stop ≤ start ∨ stop ≤ t.span.start

namespace Scan

theorem width_pos {cs : List Char} (h : cs ≠ []) : 0 < width cs := by
  cases cs with
  | nil => exact absurd rfl h
  | cons c cs =>
      rw [width_cons]
      exact Nat.add_pos_left c.utf8Size_pos _

theorem Lexeme.ne_nil {kind : TokenKind} {piece rest : List Char}
    (h : Lexeme (some kind) piece rest) : piece ≠ [] := by
  cases h with
  | @text form => cases form <;> nofun
  | @openText form => cases form <;> nofun
  | word | stray => nofun
  | number hnumeral => cases hnumeral <;> nofun
  | symbol hmem => exact symbol_ne_nil _ hmem

namespace Cut

variable {index : LineIndex} {offset : Nat} {cs : List Char} {tokens : List Token}

theorem row (h : Cut index offset cs tokens) :
    Span.Row offset (offset + width cs) (tokens.map Token.span) := by
  induction h with
  | done => exact .nil (Nat.le_add_right _ _)
  | pass _ _ ih =>
      rw [width_append, ← Nat.add_assoc]
      exact ih.widen (Nat.le_add_right _ _) le_rfl
  | take _ _ ih =>
      rw [width_append, ← Nat.add_assoc]
      exact .cons le_rfl (Nat.le_add_right _ _) ih

theorem placed (h : Cut index offset cs tokens) : ∀ t ∈ tokens, t.span.Placed index := by
  induction h with
  | done => nofun
  | pass _ _ ih => exact ih
  | take _ _ ih => exact List.forall_mem_cons.mpr ⟨rfl, ih⟩

theorem lexeme (h : Cut index offset cs tokens) : ∀ t ∈ tokens, ∃ before after,
    cs = before ++ (t.text.toList ++ after) ∧ Lexeme (some t.kind) t.text.toList after ∧
      t.span.start = offset + width before ∧ t.span.stop = t.span.start + width t.text.toList := by
  induction h with
  | done => nofun
  | @pass offset piece rest tokens _ _ ih =>
      intro t ht
      obtain ⟨before, after, rfl, hlexeme, hstart, hstop⟩ := ih t ht
      refine ⟨piece ++ before, after, by simp, hlexeme, ?_, hstop⟩
      rw [hstart, width_append, Nat.add_assoc]
  | @take offset kind piece rest tokens hpiece _ ih =>
      refine List.forall_mem_cons.mpr ⟨⟨[], rest, ?_, ?_, rfl, ?_⟩, fun t ht => ?_⟩
      · rw [String.toList_ofList]
        rfl
      · rwa [String.toList_ofList]
      · rw [String.toList_ofList]
        rfl
      · obtain ⟨before, after, rfl, hlexeme, hstart, hstop⟩ := ih t ht
        refine ⟨piece ++ before, after, by simp, hlexeme, ?_, hstop⟩
        rw [hstart, width_append, Nat.add_assoc]

/-- A byte that belongs to no token belongs to a piece between the tokens that is passed over. -/
theorem covered (h : Cut index offset cs tokens) {byte : Nat} (hlow : offset ≤ byte)
    (hhigh : byte < offset + width cs) :
    (∃ t ∈ tokens, t.span.start ≤ byte ∧ byte < t.span.stop) ∨
      ∃ before piece after, cs = before ++ (piece ++ after) ∧ Passed piece after ∧
        offset + width before ≤ byte ∧ byte < offset + width before + width piece ∧
        ∀ t ∈ tokens, t.span.stop ≤ offset + width before ∨
          offset + width before + width piece ≤ t.span.start := by
  induction h with
  | done => exact absurd hhigh (Nat.not_lt.mpr hlow)
  | @pass offset piece rest tokens hpiece hrest ih =>
      rw [width_append, ← Nat.add_assoc] at hhigh
      by_cases hbyte : byte < offset + width piece
      · refine .inr ⟨[], piece, rest, rfl, hpiece, hlow, hbyte, fun t ht => .inr ?_⟩
        exact (hrest.row.bounds (List.mem_map_of_mem ht)).1
      · rcases ih (Nat.le_of_not_lt hbyte) hhigh with
          htoken | ⟨before, gap, after, rfl, hgap, hplace⟩
        · exact .inl htoken
        · refine .inr ⟨piece ++ before, gap, after, by simp, hgap, ?_⟩
          rw [width_append, ← Nat.add_assoc]
          exact hplace
  | @take offset kind piece rest tokens _ _ ih =>
      rw [width_append, ← Nat.add_assoc] at hhigh
      by_cases hbyte : byte < offset + width piece
      · exact .inl ⟨_, List.mem_cons_self, hlow, hbyte⟩
      · rcases ih (Nat.le_of_not_lt hbyte) hhigh with
          ⟨t, ht, hplace⟩ | ⟨before, gap, after, rfl, hgap, hstart, hstop, hapart⟩
        · exact .inl ⟨t, List.mem_cons_of_mem _ ht, hplace⟩
        · refine .inr ⟨piece ++ before, gap, after, by simp, hgap, ?_⟩
          rw [width_append, ← Nat.add_assoc]
          exact ⟨hstart, hstop,
            List.forall_mem_cons.mpr ⟨.inl (Nat.le_add_right _ _), hapart⟩⟩

end Cut

end Scan

/-- The tokens of a text tile it. -/
theorem tiles_scan (source : String) : Tiles source (scan source) := by
  have hcut := Scan.cut_scan source
  have hwidth : width source.toList = source.utf8ByteSize := by rw [width, String.ofList_toList]
  refine ⟨fun t ht => ?_, ?_, fun t ht => ?_, hcut.placed, fun byte hbyte => ?_⟩
  · obtain ⟨_, _, _, hlexeme, _, hstop⟩ := hcut.lexeme t ht
    rw [hstop]
    exact Nat.lt_add_of_pos_right (Scan.width_pos hlexeme.ne_nil)
  · exact List.pairwise_map.mp hcut.row.pairwise
  · obtain ⟨before, after, hsource, -, hstart, hstop⟩ := hcut.lexeme t ht
    refine ⟨String.ofList before, String.ofList after, ?_, ?_, ?_⟩
    · rw [← String.toList_inj, hsource]
      simp
    · rw [hstart, Nat.zero_add]
      rfl
    · rw [hstop, width, String.ofList_toList]
  · rcases hcut.covered (Nat.zero_le byte) (by rwa [Nat.zero_add, hwidth]) with
      htoken | ⟨before, piece, after, hsource, hpiece, hstart, hstop, hapart⟩
    · exact .inl htoken
    · rw [Nat.zero_add] at hstart hstop hapart
      exact .inr ⟨_, _, ⟨before, piece, after, hsource, hpiece, rfl, rfl⟩, hstart, hstop, hapart⟩

end P16
