import BlockIndex.Block
import BlockIndex.BlockFile.Reader
import BlockIndex.BlockFile.Scan
import BlockIndex.Cache
import BlockIndex.Chain.Assembler
import BlockIndex.CompactSize
import BlockIndex.Config.File
import BlockIndex.Config.Setting
import BlockIndex.Error
import BlockIndex.Network
import BlockIndex.Record
import BlockIndex.Run.Prepare
import BlockIndex.Store.Memory
import BlockIndex.Text.Decimal
import BlockIndex.Proofs.Run.Growth
import BlockIndex.Proofs.Run.Removal
import BlockIndex.Proofs.Chain.Reload
import BlockIndex.Proofs.Chain.Enumeration
import BlockIndex.Proofs.Chain.Seeding
import BlockIndex.Proofs.Chain.Switching
import BlockIndex.Proofs.Run.Agreement
import BlockIndex.Proofs.Run.Rerun
import BlockIndex.Proofs.Store.Refinement
import BlockIndex.Proofs.Run.Fallback
import BlockIndex.Proofs.Run.Reaching
import BlockIndex.Proofs.Run.Payloads
import BlockIndex.Proofs.Run.Volumes
import BlockIndex.Proofs.BlockFile.Listing
import BlockIndex.Proofs.BlockFile.Transparency
import BlockIndex.Proofs.Chain.Truncation
import BlockIndex.Proofs.Transaction.Buffer
import BlockIndex.Proofs.Transaction.Sizes
import BlockIndex.Proofs.HashText
import BlockIndex.Proofs.Identity
import BlockIndex.Proofs.Store.Failure
