import Script.Main
import Script.Snippet
import Script.Proofs.Constants
import Script.Proofs.Partition
import Script.Proofs.Levels
import Script.Proofs.RoundTrip
import Script.Proofs.Precedence
import Script.Proofs.Callers
import Script.Proofs.Steps
import Script.Proofs.Discipline
import Script.Proofs.Literals
import Script.Proofs.Locations
import Script.Proofs.LoopExits
import Script.Proofs.ReadBack
import Script.Proofs.Backtracking
import Script.Proofs.Forest
import Script.Proofs.Tracebacks
import Script.Proofs.Mutation
import Script.Proofs.MainRule
import Script.Proofs.Nesting
import Script.Proofs.Faithful
import Script.Proofs.Written
import Script.Proofs.Exactness
import Script.Proofs.Counting
import Script.Proofs.Footing
import Script.Proofs.Furthest
import Script.Proofs.Guesses
import Script.Proofs.Nearest
import Script.Proofs.Indexing
import Script.Proofs.Carets
import Script.Proofs.Markers
import Script.Proofs.InputLines
import Script.Proofs.Ancestry
import Script.Proofs.Attributes
import Script.Proofs.Bounds
