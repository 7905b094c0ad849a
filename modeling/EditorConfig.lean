import EditorConfig.Main
import EditorConfig.Proofs.Document.Blanking
import EditorConfig.Proofs.Document.Layout
import EditorConfig.Proofs.Document.Limits
import EditorConfig.Proofs.Document.Stacking
import EditorConfig.Proofs.Glob.Advancing
import EditorConfig.Proofs.Glob.Alternation
import EditorConfig.Proofs.Glob.BracketChoice
import EditorConfig.Proofs.Glob.Counting
import EditorConfig.Proofs.Glob.Ranges
import EditorConfig.Proofs.Glob.Relocation
import EditorConfig.Proofs.Glob.Separators
import EditorConfig.Proofs.Properties.Merging
import EditorConfig.Proofs.Reporting.Failure
import EditorConfig.Proofs.Reporting.Sheet
import EditorConfig.Proofs.Reporting.Visible
import EditorConfig.Proofs.Resolving.Cache
import EditorConfig.Proofs.Resolving.Damage
import EditorConfig.Proofs.Resolving.Locality
import EditorConfig.Proofs.Resolving.Recasing
import EditorConfig.Proofs.Resolving.Sight
import EditorConfig.Proofs.Resolving.Spelling
import EditorConfig.Proofs.Rules.Understanding
import EditorConfig.Proofs.Settings.Creation
import EditorConfig.Proofs.Settings.Upward
