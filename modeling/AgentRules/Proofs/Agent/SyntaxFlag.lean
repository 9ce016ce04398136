import AgentRules.Proofs.Agent.Nesting
import AgentRules.Proofs.Agent.Planting
import AgentRules.Proofs.Agent.Scan

/-! # The mark of a malformed text

A tree says whether its text is malformed. For agent texts this is exactly the question whether the
parentheses of the text match and are nested no deeper than `maxBlockDepth`, whatever else the text
is made of: the tokens have the parentheses of the text (`Token.ofTokens_scan`), the grammar reports
them unless they nest (`items_bad`), and the report reaches the tree, which is always made
(`parse_ok`). -/

namespace AgentRules.Grammar

/-- **A text is marked as malformed if and only if** some `)` of it has no open `(` before it, some
`(` is never closed, or more than `maxBlockDepth` parentheses are open somewhere. -/
theorem syntaxError_parse_iff (text : String) :
    ∃ t, parse text = .ok t ∧
      (t.syntaxError = true ↔
        Unopened text.toList ∨ Unclosed text.toList ∨ Deeper maxBlockDepth text.toList) := by
  obtain ⟨t, ht, hflag⟩ := parse_ok text
  refine ⟨t, ht, ?_⟩
  rw [hflag, items_bad, Token.ofTokens_scan]
  exact not_closes_ofText text.toList

end AgentRules.Grammar
