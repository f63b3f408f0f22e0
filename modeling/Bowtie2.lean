import Bowtie2.SeedPos
import Bowtie2.BtCandidate
import Bowtie2.RowSampler.Basic
import Bowtie2.RowSampler.Mass
import Bowtie2.RowSampler.Dart
import Bowtie2.RowSampler.Draw
import Bowtie2.RowSampler.Pool
import Bowtie2.RowSampler.Epoch
import Bowtie2.Driver
