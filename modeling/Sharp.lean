import Sharp.Main
import Sharp.Proofs.PropertyTypes
import Sharp.Proofs.Effects
import Sharp.Proofs.Discipline
import Sharp.Proofs.ParenthesizedTypes
import Sharp.Proofs.Arrows
import Sharp.Proofs.Sections
import Sharp.Proofs.PendingModifiers
import Sharp.Proofs.Constness
import Sharp.Proofs.Signatures
import Sharp.Proofs.GenericsChains
import Sharp.Proofs.UniqueRendering
import Sharp.Proofs.MaximalTokens
import Sharp.Proofs.BracketMatching
import Sharp.Proofs.UsingLists
import Sharp.Proofs.Significance
