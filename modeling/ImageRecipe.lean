import ImageRecipe.Archive.Extraction
import ImageRecipe.Main
import ImageRecipe.Proofs.BackendAgreement
import ImageRecipe.Proofs.BaseImages
import ImageRecipe.Proofs.BuildFileReading
import ImageRecipe.Proofs.CachedRebuilds
import ImageRecipe.Proofs.ContextAgreement
import ImageRecipe.Proofs.ContextSources
import ImageRecipe.Proofs.DamagedResults
import ImageRecipe.Proofs.DefaultUser
import ImageRecipe.Proofs.DerivedBuilds
import ImageRecipe.Proofs.DirectImages
import ImageRecipe.Proofs.FailedBuilds
import ImageRecipe.Proofs.ImageIds
import ImageRecipe.Proofs.ImageTables
import ImageRecipe.Proofs.InstructionDocuments
import ImageRecipe.Proofs.LayerRoundTrip
import ImageRecipe.Proofs.Listings
import ImageRecipe.Proofs.LockRegeneration
import ImageRecipe.Proofs.LockfileWrites
import ImageRecipe.Proofs.ObjectTables
import ImageRecipe.Proofs.PartitionFrame
import ImageRecipe.Proofs.SavedSettings
import ImageRecipe.Proofs.SharedSessions
import ImageRecipe.Proofs.StoredImages
import ImageRecipe.Proofs.Tags
import ImageRecipe.Proofs.UnrelatedPins
import ImageRecipe.Proofs.Users
import ImageRecipe.Proofs.EntryOrder
import ImageRecipe.Proofs.ArchiveStructure
import ImageRecipe.Proofs.LockContents
import ImageRecipe.Proofs.QueryAnswers
import ImageRecipe.Proofs.EnvironmentValues
import ImageRecipe.Proofs.RepeatedAttempts
import ImageRecipe.Proofs.Delays
import ImageRecipe.Proofs.Owners
import ImageRecipe.Proofs.Identifiers
import ImageRecipe.Proofs.ForeignStores
