import AgentRules.Analyzer.Shared
import AgentRules.Main
import AgentRules.Preview
import AgentRules.Proofs.Tree.Built
import AgentRules.Proofs.Tree.Sound
import AgentRules.Proofs.Tree.Edits
import AgentRules.Proofs.Tree.Preorder
import AgentRules.Proofs.Path.Spelling
import AgentRules.Proofs.Tree.Paths
import AgentRules.Proofs.Announce.Notices
import AgentRules.Proofs.Announce.Recorded
import AgentRules.Proofs.Index.Keys
import AgentRules.Proofs.Index.Registered
import AgentRules.Proofs.Analysis.Trials
import AgentRules.Proofs.Analysis.Capacity
import AgentRules.Proofs.Chain.Reach
import AgentRules.Proofs.Chain.Outcomes
import AgentRules.Proofs.Expr.Readable
import AgentRules.Proofs.Expr.Reading
import AgentRules.Proofs.Index.Folding
import AgentRules.Proofs.Analysis.Findings
import AgentRules.Proofs.Analysis.Tried
import AgentRules.Proofs.Analysis.FastPath
import AgentRules.Proofs.Agent.Cuts
import AgentRules.Proofs.Agent.Nesting
import AgentRules.Proofs.Agent.Places
import AgentRules.Proofs.Agent.Planting
import AgentRules.Proofs.Agent.Scan
import AgentRules.Proofs.Agent.SyntaxFlag
import AgentRules.Proofs.Segment.Runs
import AgentRules.Proofs.Expr.Roundtrip
import AgentRules.Proofs.Index.Endings
import AgentRules.Proofs.Analysis.Independence
import AgentRules.Proofs.Index.Rules
import AgentRules.Proofs.Analysis.Candidates
import AgentRules.Proofs.Analysis.Merging
import AgentRules.Proofs.Index.Joined
import AgentRules.Proofs.Analysis.Composition
import AgentRules.Proofs.Index.Choices
import AgentRules.Proofs.Index.Acceptance
import AgentRules.Proofs.Agent.Planted
import AgentRules.Proofs.Index.Ranged
import AgentRules.Proofs.Analysis.Ranged
import AgentRules.Proofs.Agent.Contiguous
import AgentRules.Proofs.Agent.Derivation
import AgentRules.Proofs.Agent.Layout
import AgentRules.Proofs.Agent.Coverage
import AgentRules.Proofs.Agent.Contents
import AgentRules.Proofs.Agent.Addresses
import AgentRules.Proofs.Json.Quoted
import AgentRules.Proofs.Json.Roundtrip
import AgentRules.Proofs.Rules.Roundtrip
import AgentRules.Proofs.Lookup.Entered
import AgentRules.Proofs.Lookup.LongestHead
import AgentRules.Proofs.Lookup.Resolution
import AgentRules.Proofs.InPlace
import AgentRules.Proofs.Rules.Merging
import AgentRules.Proofs.Analysis.Arbitration
import AgentRules.Proofs.Brand.Pieces
import AgentRules.Proofs.Analysis.Dispatch
import AgentRules.Proofs.Text.Strip
import AgentRules.Proofs.Tree.Moves
import AgentRules.Proofs.Segment.Maximal
import AgentRules.Proofs.Agent.Partition
import AgentRules.Proofs.Rules.Lines
import AgentRules.Proofs.Version.Normal
import AgentRules.Proofs.Chain.Agreement
import AgentRules.Proofs.Index.Numbering
import AgentRules.Proofs.Result.Members
import AgentRules.Proofs.Result.Settled
import AgentRules.Proofs.Result.Unambiguous
import AgentRules.Proofs.Result.Limited
