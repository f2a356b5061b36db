import TermMining.Analyzer
import TermMining.Candidate
import TermMining.Corpus
import TermMining.Criteria
import TermMining.Criteria.Settings
import TermMining.Document
import TermMining.Fault
import TermMining.Filter
import TermMining.Index
import TermMining.Miner
import TermMining.Number.Bits
import TermMining.Number.Layout
import TermMining.Number.Nearest
import TermMining.Number.Reading
import TermMining.Number.Shortest
import TermMining.Order.Boundary
import TermMining.Order.Heap
import TermMining.Order.Merge
import TermMining.Order.Runs
import TermMining.Order.Sort
import TermMining.Order.Sorted
import TermMining.Order.Merge.Sorted
import TermMining.Order.Sort.Sorted
import TermMining.OrderedMap
import TermMining.Pattern
import TermMining.Pattern.Expression
import TermMining.Postings
import TermMining.Query
import TermMining.Query.Disjunction
import TermMining.Query.Outline
import TermMining.Query.Text
import TermMining.Selection
import TermMining.Shortlist
import TermMining.Similarity
import TermMining.Stream
import TermMining.StringSet
import TermMining.Tally
import TermMining.Term
import TermMining.TermVector
import TermMining.Text.Blank
import TermMining.Text.CaseRuns
import TermMining.Text.Cased
import TermMining.Text.CharSet
import TermMining.Text.Digit
import TermMining.Text.Letter
import TermMining.Text.Lowercase
import TermMining.Text.Numeral
import TermMining.Text.Printable
import TermMining.Text.Quoted
import TermMining.Text.Word
import TermMining.Token
import TermMining.Tokenizer
import TermMining.Value
import TermMining.Value.Order
import TermMining.Weight
import TermMining.Weight.Double
import TermMining.Proofs.Number.Product
import TermMining.Proofs.Rank
import TermMining.Proofs.Heap
import TermMining.Proofs.Shortlist
import TermMining.Proofs.Shortlist.Lineup
import TermMining.Proofs.Selection
import TermMining.Proofs.Shortlist.Offers
import TermMining.Proofs.Tally
import TermMining.Proofs.Index.Postings
import TermMining.Proofs.OrderedMap
import TermMining.Proofs.TermVector
import TermMining.Proofs.Index.Catalog
import TermMining.Proofs.Index.Intake
import TermMining.Proofs.Index.Refinement
import TermMining.Proofs.Tally.Counting
import TermMining.Proofs.Tally.Allowance
import TermMining.Proofs.Tally.Noise
import TermMining.Proofs.Index.Versions
import TermMining.Proofs.Selection.Agreement
import TermMining.Proofs.Miner.Sources
import TermMining.Proofs.Index.Integrity
import TermMining.Proofs.Index.Contents
import TermMining.Proofs.Index.Survivors
import TermMining.Proofs.Miner.History
import TermMining.Proofs.Shortlist.Holdings
import TermMining.Proofs.Miner.Forms
import TermMining.Proofs.Index.Settled
import TermMining.Proofs.Tally.Rows
import TermMining.Proofs.Tally.Vectors
import TermMining.Proofs.Miner.Provenance
import TermMining.Proofs.Miner.Ranking
import TermMining.Proofs.Miner.Order
import TermMining.Proofs.Analyzer
import TermMining.Proofs.Index.Reading
import TermMining.Proofs.Miner.Joined
import TermMining.Proofs.Miner.Boosts
import TermMining.Proofs.Stream
import TermMining.Proofs.Miner.Failures
import TermMining.Proofs.Weight.Partial
import TermMining.Proofs.Miner.Arithmetic
import TermMining.Proofs.Pattern.Scan
import TermMining.Proofs.Pattern.Joined
import TermMining.Proofs.Pattern.Word
import TermMining.Proofs.Pattern.Attempts
import TermMining.Proofs.Tokenizer
import TermMining.Proofs.Analyzer.Places
import TermMining.Proofs.Query.Boosts
import TermMining.Proofs.Shortlist.Unordered
import TermMining.Proofs.Miner.Repetition
import TermMining.Proofs.Text.CaseRuns
import TermMining.Proofs.Text.Lowercase
import TermMining.Proofs.Analyzer.Reread
import TermMining.Proofs.Miner.Reread
import TermMining.Proofs.Tokenizer.Runs
import TermMining.Proofs.Query.Extension
import TermMining.Proofs.Query.Tree
import TermMining.Proofs.Query.Outline
import TermMining.Proofs.Number.Text
import TermMining.Proofs.Query.Phrases
import TermMining.Proofs.Query.Text
import TermMining.Proofs.Value
import TermMining.Proofs.Criteria
import TermMining.Proofs.Query.Cap
import TermMining.Proofs.Postings
import TermMining.Proofs.Miner.Percentage
import TermMining.Proofs.Tokenizer.Scripts
