import PlanSearch.Optimizer.Report
import PlanSearch.Optimizer.Search
import PlanSearch.Partition.Classes
import PlanSearch.Proofs.Optimizer.History
import PlanSearch.Proofs.Optimizer.Soundness
import PlanSearch.Relational.CostTable
import PlanSearch.Relational.Facts
import PlanSearch.Relational.Template
import PlanSearch.Proofs.Memo.Standings
import PlanSearch.Proofs.Outline.Lineage
import PlanSearch.Proofs.Memo.Edits
import PlanSearch.Proofs.Memo.MergeEdits
import PlanSearch.Proofs.Memo.Congruence
import PlanSearch.Proofs.Memo.CallEdits
import PlanSearch.Proofs.Memo.Lowering
import PlanSearch.Proofs.Memo.Quotes
import PlanSearch.Proofs.Optimizer.Course
import PlanSearch.Proofs.Optimizer.Winners
import PlanSearch.Proofs.Memo.Backing
import PlanSearch.Proofs.Optimizer.Cycles
import PlanSearch.Proofs.Memo.Offers
import PlanSearch.Proofs.Memo.Derivations
import PlanSearch.Proofs.Memo.Upkeep
import PlanSearch.Proofs.Memo.Current
import PlanSearch.Proofs.Optimizer.Tending
import PlanSearch.Proofs.Optimizer.Extraction
import PlanSearch.Proofs.Optimizer.Enforcers
import PlanSearch.Proofs.Optimizer.Delivery
import PlanSearch.Proofs.Memo.RowTypes
import PlanSearch.Proofs.Memo.Failures
import PlanSearch.Proofs.Optimizer.Termination
import PlanSearch.Proofs.Memo.Handles
import PlanSearch.Proofs.Memo.Lookups
import PlanSearch.Proofs.Matching.Depicts
import PlanSearch.Proofs.Memo.Seats
import PlanSearch.Proofs.Matching.Images
import PlanSearch.Proofs.Memo.Contents
import PlanSearch.Proofs.Memo.Renaming
import PlanSearch.Proofs.Optimizer.Afresh
import PlanSearch.Proofs.Optimizer.Closure
import PlanSearch.Proofs.Optimizer.Confluence
import PlanSearch.Proofs.Optimizer.TraitSets
import PlanSearch.Proofs.Optimizer.Freshness
import PlanSearch.Proofs.Memo.Following
import PlanSearch.Proofs.Memo.Asking
import PlanSearch.Proofs.Matching.Enumeration
import PlanSearch.Proofs.Optimizer.Dockets
import PlanSearch.Proofs.Optimizer.Anytime
import PlanSearch.Proofs.Memo.Arrivals
import PlanSearch.Proofs.Optimizer.PlanSpace
import PlanSearch.Proofs.Optimizer.Budgets
import PlanSearch.Proofs.Chains
import PlanSearch.Proofs.Tickets
import PlanSearch.Proofs.Texts.Traits
import PlanSearch.Proofs.Representatives
import PlanSearch.Proofs.Parameters
import PlanSearch.Proofs.Matching.Roots
