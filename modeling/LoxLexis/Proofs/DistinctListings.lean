import LoxLexis.Proofs.FileRuns
import LoxLexis.Proofs.ShownTokens

/-! What is listed of two texts is the same only where their tokens are. -/
namespace LoxLexis

private theorem toList_listing_cons (layout : Layout) (t : Token) (tokens : List Token) :
    (listing layout (t :: tokens)).toList =
      (t.render layout).toList ++ '\n' :: (listing layout tokens).toList := by
  simp [listing, String.join_cons]

/-- Lists of tokens are listed in different ways. -/
theorem listing_inj {layout : Layout} {tokens others : List Token} (ht : ∀ t ∈ tokens, t.Occurs)
    (hu : ∀ u ∈ others, u.Occurs) (h : listing layout tokens = listing layout others) :
    tokens.map Token.content = others.map Token.content ∧
      (layout = .canonical ∨ tokens.map Token.line = others.map Token.line) := by
  induction tokens generalizing others with
  | nil =>
    cases others with
    | nil => exact ⟨rfl, Or.inr rfl⟩
    | cons u others =>
      have hlist := congrArg String.toList h
      rw [toList_listing_cons] at hlist
      simp [listing] at hlist
  | cons t tokens ih =>
    have hlist := congrArg String.toList h
    rw [toList_listing_cons] at hlist
    cases others with
    | nil => simp [listing] at hlist
    | cons u others =>
      rw [toList_listing_cons] at hlist
      obtain ⟨htoken, htokens⟩ := List.forall_mem_cons.mp ht
      obtain ⟨hother, hothers⟩ := List.forall_mem_cons.mp hu
      obtain ⟨hcontent, hline, hlater⟩ := htoken.render_append_inj hother hlist
      have hrest := String.toList_inj.mp (List.cons.inj hlater).2
      obtain ⟨hcontents, hlines⟩ := ih htokens hothers hrest
      rw [List.map_cons, List.map_cons, List.map_cons, List.map_cons, hcontent, hcontents]
      refine ⟨rfl, ?_⟩
      rcases hline with hlayout | hline
      · exact Or.inl hlayout
      · rw [hline]
        exact hlines.imp_right fun hlines => by rw [hlines]

private theorem listing_congr {layout : Layout} {tokens others : List Token}
    (h : tokens.map Token.content = others.map Token.content)
    (hlines : layout = .canonical ∨ tokens.map Token.line = others.map Token.line) :
    listing layout tokens = listing layout others := by
  induction tokens generalizing others with
  | nil => rw [List.map_eq_nil_iff.mp h.symm]
  | cons t tokens ih =>
    obtain ⟨u, others, rfl, hcontent, hrest⟩ := List.map_eq_cons_iff.mp h.symm
    rw [List.map_cons, List.map_cons, List.cons.injEq] at hlines
    have hrender := Token.render_congr hcontent.symm (hlines.imp_right And.left)
    have hlist := ih hrest.symm (hlines.imp_right And.right)
    rw [← String.toList_inj, toList_listing_cons, toList_listing_cons, hrender, hlist]

/-- What is printed of a text tells the tokens of its scan, one by one: kind, lexeme and value, and
also the line, where the layout shows it. Nothing else of the text can be told from it. -/
theorem stdout_runText_eq_iff (layout : Layout) (source other : String) :
    (runText layout source).output.stdout = (runText layout other).output.stdout ↔
      (scan source).tokens.map Token.content = (scan other).tokens.map Token.content ∧
        (layout = .canonical ∨
          (scan source).tokens.map Token.line = (scan other).tokens.map Token.line) := by
  rw [runText_eq, runText_eq]
  constructor
  · intro h
    exact listing_inj (fun t ht => occurs_of_mem_tokens ht) (fun t ht => occurs_of_mem_tokens ht) h
  · rintro ⟨hcontents, hlines⟩
    exact listing_congr hcontents hlines

end LoxLexis
